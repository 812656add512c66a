import FeatherScript.Proofs.Eval.Failure

/-!
# Assignments

An assignment never fails and writes one binding. It is the binding in the scope at hand, if there
is one; otherwise that of the nearest scope around it that binds the name, unless the name is null
there; and otherwise a new one in the scope at hand. So a null binding is overwritten in its own
scope only, and from inside it is shadowed. That a name is declared already is an error of
declarations and of repeated parameters.

* `Scopes.Finds`: the nearest scope that binds a name, from a scope outward.
* `Scopes.Assigns`: the scope whose binding an assignment writes.
* `Scopes.Writes`: scopes that differ from others in one binding.
* `Redeclares`: the evaluations that declare a name twice in one scope.
-/

namespace FeatherScript

/-! ## The scope that is written -/

namespace Scopes

/-- Every scope is younger than the one around it. -/
def Ordered (g : Scopes) : Prop := ∀ id outer, g.parent? id = some outer → outer < id

/-- From a scope outward, another one is the first to bind a name. -/
inductive Finds (g : Scopes) (name : Name) : ScopeId → ScopeId → Prop
  | here {id} (hBinds : g.binds id name = true) : Finds g name id id
  | further {id outer owner} (hFree : g.binds id name = false)
      (hParent : g.parent? id = some outer) (hOuter : Finds g name outer owner) :
      Finds g name id owner

/-- An assignment from the scope `env` writes the binding of another scope, or a new one there. -/
inductive Assigns (g : Scopes) (env : ScopeId) (name : Name) : ScopeId → Prop
  | own (hBinds : g.binds env name = true) : Assigns g env name env
  | enclosing {outer owner v} (hFree : g.binds env name = false)
      (hParent : g.parent? env = some outer) (hFinds : g.Finds name outer owner)
      (hLookup : g.lookup? owner name = some v) (hValue : v ≠ .null) : Assigns g env name owner
  | fresh (hFree : g.binds env name = false)
      (hNull : ∀ outer owner, g.parent? env = some outer → g.Finds name outer owner →
        g.lookup? owner name = some .null) : Assigns g env name env

/-- Scopes that are others with one binding written. -/
structure Writes (g g' : Scopes) (target : ScopeId) (name : Name) (value : Value) : Prop where
  size : g'.all.size = g.all.size
  parents : ∀ id, g'.parent? id = g.parent? id
  written : g'.lookup? target name = some value
  others : ∀ id n, id ≠ target ∨ n ≠ name → g'.lookup? id n = g.lookup? id n

variable {g : Scopes} {id env owner target : ScopeId} {name : Name} {value : Value}

/-- Where parents are older, a name not bound in a scope belongs to the owner for its parent. -/
theorem Ordered.owner?_eq (h : g.Ordered) : g.owner? id name =
    if g.binds id name = true then some id else (g.parent? id).bind (g.owner? · name) := by
  cases hScope : g.scope? id with
  | none =>
    rw [owner?_of_none hScope]
    simp [binds, parent?, hScope]
  | some scope =>
    have hFilter : scope.parent.filter (· < id) = scope.parent := by
      cases hParent : scope.parent with
      | none => rfl
      | some outer =>
        have hLess : outer < id := h id outer (by simp [parent?, hScope, hParent])
        rw [Option.filter_some, if_pos (decide_eq_true hLess)]
    rw [owner?_of_scope? hScope, hFilter]
    simp [binds, parent?, hScope]

theorem Ordered.finds_iff (h : g.Ordered) :
    g.Finds name id owner ↔ g.owner? id name = some owner := by
  constructor
  · intro hFinds
    induction hFinds with
    | here hBinds => exact owner?_of_binds hBinds
    | further hFree hParent _ ih => rw [h.owner?_eq, hFree, if_neg Bool.false_ne_true, hParent,
        Option.bind_some, ih]
  · intro hOwner
    -- The owner lies outward, where scopes are older.
    induction id using Nat.strongRecOn with
    | ind id ih =>
      rw [h.owner?_eq] at hOwner
      split at hOwner
      · next hBinds =>
        cases hOwner
        exact .here hBinds
      · next hFree =>
        obtain ⟨outer, hParent, hOuter⟩ := Option.bind_eq_some_iff.mp hOwner
        exact .further (Bool.eq_false_iff.mpr hFree) hParent
          (ih outer (h id outer hParent) hOuter)

/-- A scope that does not bind a name leaves it to the scope around it. -/
theorem Finds.of_free (hFinds : g.Finds name id owner) (hFree : g.binds id name = false) :
    ∃ outer, g.parent? id = some outer ∧ g.Finds name outer owner := by
  cases hFinds with
  | here hBinds =>
    rw [hFree] at hBinds
    cases hBinds
  | further _ hParent hOuter => exact ⟨_, hParent, hOuter⟩

theorem assignee_of_binds (hBinds : g.binds env name = true) : g.assignee env name = env := by
  rw [assignee, owner?_of_binds hBinds, Option.getD_some, ite_self]

theorem assignee_of_null (hNull : g.resolve env name = .null) : g.assignee env name = env :=
  if_pos hNull

theorem assignee_of_finds {v : Value} (h : g.Ordered) (hFinds : g.Finds name env owner)
    (hLookup : g.lookup? owner name = some v) (hValue : v ≠ .null) :
    g.assignee env name = owner := by
  have hOwner := h.finds_iff.mp hFinds
  rw [assignee, resolve_of_owner? hOwner hLookup, if_neg hValue, hOwner, Option.getD_some]

theorem assigns_assignee (h : g.Ordered) (env : ScopeId) (name : Name) :
    g.Assigns env name (g.assignee env name) := by
  cases hBinds : g.binds env name with
  | true =>
    rw [assignee_of_binds hBinds]
    exact .own hBinds
  | false =>
    by_cases hNull : g.resolve env name = .null
    · rw [assignee_of_null hNull]
      refine .fresh hBinds fun outer owner hParent hFinds => ?_
      have hOwner := h.finds_iff.mp (.further hBinds hParent hFinds)
      obtain ⟨v, hLookup⟩ := lookup?_of_owner? hOwner
      rw [hLookup, ← resolve_of_owner? hOwner hLookup, hNull]
    · obtain ⟨owner, hOwner, hLookup⟩ := owner?_of_resolve hNull
      have hFinds := h.finds_iff.mpr hOwner
      obtain ⟨outer, hParent, hOuter⟩ := hFinds.of_free hBinds
      rw [assignee_of_finds h hFinds hLookup hNull]
      exact .enclosing hBinds hParent hOuter hLookup hNull

/-- An assignment writes the binding of one scope only, the assignee. -/
theorem assigns_iff (h : g.Ordered) :
    g.Assigns env name target ↔ target = g.assignee env name := by
  constructor
  · intro hAssigns
    cases hAssigns with
    | own hBinds => exact (assignee_of_binds hBinds).symm
    | enclosing hFree hParent hFinds hLookup hValue =>
      exact (assignee_of_finds h (.further hFree hParent hFinds) hLookup hValue).symm
    | fresh hFree hNull =>
      refine (assignee_of_null ?_).symm
      cases hOwner : g.owner? env name with
      | none => exact resolve_of_no_owner hOwner
      | some owner =>
        obtain ⟨outer, hParent, hFinds⟩ := (h.finds_iff.mpr hOwner).of_free hFree
        exact resolve_of_owner? hOwner (hNull outer owner hParent hFinds)
  · rintro rfl
    exact assigns_assignee h env name

/-! ## The scopes after a write -/

theorem writes_write (hTarget : target < g.all.size) (name : Name) (value : Value) :
    g.Writes (g.write target name value) target name value where
  size := size_write
  parents _ := parent?_write
  written := lookup?_write_self hTarget
  others _ _ hOther := lookup?_write_of_ne (hOther.imp_left Ne.symm)

/-- A scope that owns a name still owns it when the binding has a new value. -/
theorem owner?_write_owner (hEnv : env < g.all.size) (hOwner : g.owner? env name = some target) :
    (g.write target name value).owner? env name = some target := by
  obtain ⟨v, hLookup⟩ := lookup?_of_owner? hOwner
  have hTarget := lt_size_of_lookup? hLookup
  have hBinds : ∀ id, (g.write target name value).binds id name = g.binds id name := by
    intro id
    refine Bool.eq_iff_iff.mpr ((binds_write_iff hTarget).trans (or_iff_left_of_imp ?_))
    rintro ⟨rfl, -⟩
    rw [binds_eq_isSome, hLookup, Option.isSome_some]
  unfold owner? at hOwner ⊢
  simp only [hBinds]
  rw [extends_write.chain_eq hEnv, hOwner]

/-- After an assignment the name has the assigned value. -/
theorem resolve_write_assignee (hEnv : env < g.all.size) :
    (g.write (g.assignee env name) name value).resolve env name = value := by
  have hTarget := assignee_lt_size hEnv name
  refine resolve_of_owner? ?_ (lookup?_write_self hTarget)
  rcases Eval.Effect.assignee_cases g env name with hOwner | hSame
  · exact owner?_write_owner hEnv hOwner
  · rw [hSame] at hTarget ⊢
    exact owner?_of_binds (binds_write_self hTarget)

end Scopes

/-! ## Names declared twice -/

namespace Eval

open Effect

variable {cfg : Setting} {fuel : Nat} {s t : State} {name : Name} {span : Option Span}

/-- The evaluation of a node declares a name in a scope that binds it, or applies a closure that has
the name twice among its parameters. -/
inductive Redeclares (cfg : Setting) (name : Name) : Moment → Prop
  | declaration {fuel id env s span a v t}
      (hNode : cfg.table.node? id = some ⟨.declare name a, span⟩)
      (hValue : eval cfg fuel a env s = .ok v t) (hBinds : t.scopes.binds env name = true) :
      Redeclares cfg name ⟨fuel + 1, id, env, s⟩
  | parameter {fuel id env s span f args c t params}
      (hNode : cfg.table.node? id = some ⟨.call f args, span⟩)
      (hCallee : eval cfg fuel f env s = .ok (.closure c) t)
      (hParams : cfg.table.params? c.params = some params) (hTwice : params.Duplicate name) :
      Redeclares cfg name ⟨fuel + 1, id, env, s⟩

theorem Refuses.duplicate {c : Closure} {args : List Value} {site : Span}
    (h : Refuses cfg c args site s (.failed ⟨.alreadyDeclared name, span⟩)) :
    ∃ params, cfg.table.params? c.params = some params ∧ params.Duplicate name := by
  cases h with
  | repeated _ hParams _ hTwice => exact ⟨_, hParams, hTwice⟩

theorem Raises.redeclares {m : Moment}
    (h : Raises cfg m (.failed ⟨.alreadyDeclared name, span⟩)) : Redeclares cfg name m := by
  generalize hStop : Stop.failed ⟨.alreadyDeclared name, span⟩ = stop at h
  cases h with
  | operator _ _ _ hApply =>
    cases hStop
    obtain hCause | hCause | hCause | ⟨operation, hCause⟩ := Operator.apply_error hApply
    all_goals cases hCause
  | declared hNode hValue hBinds =>
    cases hStop
    exact .declaration hNode hValue hBinds
  | refused hNode hCallee _ _ hRefuses =>
    obtain ⟨params, hParams, hTwice⟩ := (hStop ▸ hRefuses).duplicate
    exact .parameter hNode hCallee hParams hTwice
  | _ => cases hStop

/-- An evaluation in which a name is declared already comes to a node that declares it twice. -/
theorem exists_redeclares {m : Moment}
    (h : m.outcome cfg = .error (.failed ⟨.alreadyDeclared name, span⟩) t) :
    ∃ m', Visits cfg m m' ∧ Redeclares cfg name m' := by
  obtain ⟨m', u, hVisits, -, hRaises⟩ := exists_raises h
  exact ⟨m', hVisits, hRaises.redeclares⟩

/-! ## Assignments -/

/-- The step of an assignment succeeds. -/
theorem eval_assign {id source : NodeId} {env : ScopeId} {site : Span} {v : Value}
    (hNode : cfg.table.node? id = some ⟨.assign name source, site⟩)
    (hSource : eval cfg fuel source env s = .ok v t) :
    eval cfg (fuel + 1) id env s = .ok v
      { t with scopes := t.scopes.write (t.scopes.assignee env name) name v } := by
  change nodeWith cfg fuel (eval cfg fuel) id env s = _
  unfold nodeWith
  rw [bind_of_ok (found_of_some hNode)]
  exact (bind_of_ok hSource).trans (bind_of_ok assign_eq)

/-- Assignment succeeds from every scope and for every name and value. Afterwards the name has the
value, and the scopes differ in one binding: that of the scope that `Scopes.Assigns` describes, and
that one alone describes. An assignment in a program does the same with the value of its source. An
error about a name that is declared already comes, in evaluations and in applications from outside,
from a declaration or a repeated parameter. -/
theorem assign_writes_one :
    (∀ (s : State) (env : ScopeId) (name : Name) (value : Value) (span : Option Span),
      env < s.scopes.all.size → s.scopes.Ordered →
      ∃ g target, assign env name value span s = .ok () { s with scopes := g } ∧
        (∀ cfg fuel id source site before,
          cfg.table.node? id = some ⟨.assign name source, site⟩ →
          eval cfg fuel source env before = .ok value s →
          eval cfg (fuel + 1) id env before = .ok value { s with scopes := g }) ∧
        s.scopes.Writes g target name value ∧ g.resolve env name = value ∧
        ∀ other, s.scopes.Assigns env name other ↔ other = target) ∧
    (∀ cfg (m : Moment) name span t,
      m.outcome cfg = .error (.failed ⟨.alreadyDeclared name, span⟩) t →
      ∃ m', Visits cfg m m' ∧ Redeclares cfg name m') ∧
    ∀ cfg fuel callee args name span s t,
      call cfg fuel callee args s = .error (.failed ⟨.alreadyDeclared name, span⟩) t →
      ∃ c, callee = .closure c ∧
        ((∃ params, cfg.table.params? c.params = some params ∧ params.Duplicate name) ∨
          ∃ m m', Enters cfg fuel c args .origin s m ∧ Visits cfg m m' ∧
            Redeclares cfg name m') := by
  refine ⟨fun s env name value span hEnv hOrdered => ?_, fun cfg m name span t => ?_, ?_⟩
  · refine ⟨_, s.scopes.assignee env name, assign_eq, ?_, ?_, ?_, fun other => ?_⟩
    · intro cfg fuel id source site before hNode hSource
      exact eval_assign hNode hSource
    · exact Scopes.writes_write (Scopes.assignee_lt_size hEnv name) name value
    · exact Scopes.resolve_write_assignee hEnv
    · exact Scopes.assigns_iff hOrdered
  · exact exists_redeclares
  · intro cfg fuel callee args name span s t hStop
    cases callee with
    | closure c =>
      refine ⟨c, rfl, ?_⟩
      rcases applyWith_error hStop with hRefuses | ⟨m, u, hEnters, hOutcome⟩
      · exact .inl hRefuses.duplicate
      · obtain ⟨m', hVisits, hTwice⟩ := exists_redeclares hOutcome
        exact .inr ⟨m, m', hEnters, hVisits, hTwice⟩
    | _ => cases hStop

/-- A name that is 5 in the root, null in a scope inside it, and bound in no scope inside that. -/
def shadowedByNull : State where
  scopes := ⟨#[⟨[(⟨1⟩, .int 5)], none⟩, ⟨[(⟨1⟩, .null)], some 0⟩, ⟨[], some 1⟩]⟩
  printed := #[]
  closures := 0
  depth := 0

/-- The program `(function (x, x) { x; })(1, 2)`, of which node 4 is the root. -/
def twoParameters : Setting where
  table := ⟨#[⟨.ref ⟨1⟩, ⟨19, 20⟩⟩, ⟨.function ⟨0, 2⟩ 0, ⟨1, 23⟩⟩, ⟨.int 1, ⟨25, 26⟩⟩,
    ⟨.int 2, ⟨28, 29⟩⟩, ⟨.call 1 ⟨0, 2⟩, ⟨1, 30⟩⟩], #[2, 3], #[⟨1⟩, ⟨1⟩]⟩
  policy := .bindNull
  maxDepth := 10

theorem shadowedByNull_ordered : shadowedByNull.scopes.Ordered := by
  intro id outer hParent
  match id with
  | 0 => cases hParent
  | 1 | 2 =>
    cases hParent
    decide
  | _ + 3 => cases hParent

/-- The nearest binding is null, so the name is bound anew, and neither of its values is lost. -/
theorem assign_shadows_null :
    2 < shadowedByNull.scopes.all.size ∧ shadowedByNull.scopes.Ordered ∧
    (∃ g, assign 2 ⟨1⟩ (.int 7) none shadowedByNull = .ok () { shadowedByNull with scopes := g } ∧
      shadowedByNull.scopes.Writes g 2 ⟨1⟩ (.int 7) ∧ g.resolve 2 ⟨1⟩ = .int 7) ∧
    ∃ m t, Moment.outcome twoParameters ⟨3, 4, 0, .initial⟩
        = .error (.failed ⟨.alreadyDeclared ⟨1⟩, some ⟨1, 30⟩⟩) t ∧
      Visits twoParameters ⟨3, 4, 0, .initial⟩ m ∧ Redeclares twoParameters ⟨1⟩ m := by
  have hOrdered := shadowedByNull_ordered
  refine ⟨by decide, hOrdered, ?_, ?_⟩
  · obtain ⟨g, target, hStep, -, hWrites, hValue, hAssigns⟩ :=
      assign_writes_one.1 shadowedByNull 2 ⟨1⟩ (.int 7) none (by decide) hOrdered
    have hTarget : 2 = target :=
      (hAssigns 2).mp ((Scopes.assigns_iff hOrdered).mpr (by decide +kernel))
    exact ⟨g, hStep, hTarget ▸ hWrites, hValue⟩
  · have hStop : Moment.outcome twoParameters ⟨3, 4, 0, .initial⟩
        = .error (.failed ⟨.alreadyDeclared ⟨1⟩, some ⟨1, 30⟩⟩)
          ⟨⟨#[⟨[], none⟩, ⟨[(⟨1⟩, .int 1)], some 0⟩]⟩, #[], 1, 0⟩ := rfl
    obtain ⟨m, hVisits, hTwice⟩ := assign_writes_one.2.1 _ _ _ _ _ hStop
    exact ⟨m, _, hStop, hVisits, hTwice⟩

end Eval

end FeatherScript
