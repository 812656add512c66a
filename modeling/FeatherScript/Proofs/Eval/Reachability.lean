import FeatherScript.Proofs.Eval.Lockstep
import FeatherScript.Proofs.Scope.Renumbering

/-!
# What an evaluation can reach

An evaluation reads and writes the scopes that can be reached from its own, and those that it makes.
Every other scope stays as it was and might as well be another one: two evaluations that start with
the same reachable scopes do the same, whatever else there is. New scopes have other numbers where
there are more scopes or fewer.

* `Region`: the part of the scopes that an evaluation is confined to, the nodes that it evaluates
  and the causes for which it may stop.
* `Region.coupling`: evaluations in the same part of different scopes.
* `accessibleBeside`: the region of what can be reached from a scope, beside other scopes.
* `reachable_suffices`: what cannot be reached is neither changed nor looked at.
-/

namespace FeatherScript

namespace Renumbering.Maps

variable {r : Renumbering} {g g' : Scopes} {env : ScopeId}

/-- An assignment writes to the same scope on both sides, and that scope is known. -/
theorem assignee_eq (h : r.Maps g g') (hEnv : r.Known env) (name : Name) :
    g'.assignee (r.number env) name = r.number (g.assignee env name) ∧
      r.Known (g.assignee env name) := by
  obtain ⟨hValue, -⟩ := h.resolve_eq hEnv name
  obtain ⟨hOwner, hKnown⟩ := h.owner?_eq hEnv name
  unfold Scopes.assignee
  simp only [hValue, Value.renumber_eq_null, hOwner]
  by_cases hNull : g.resolve env name = .null
  · rw [if_pos hNull, if_pos hNull]
    exact ⟨rfl, hEnv⟩
  · rw [if_neg hNull, if_neg hNull]
    cases hOwns : g.owner? env name with
    | none => exact ⟨rfl, hEnv⟩
    | some owner => exact ⟨rfl, hKnown owner hOwns⟩

end Renumbering.Maps

namespace Eval

open Effect

/-! ## Regions -/

/-- What an evaluation is confined to: some scopes, some nodes and some causes for stopping. -/
structure Region (cfg : Setting) where
  renumbering : Renumbering
  /-- The nodes that may be evaluated. -/
  Node : NodeId → Prop
  /-- The causes for which the evaluation may stop. -/
  Stops : Stop → Prop
  operand : ∀ {id n child}, Node id → cfg.table.node? id = some n →
    child ∈ n.form.operands cfg.table → Node child
  body : ∀ {c}, renumbering.Valid c → Node c.body
  closure : ∀ {id params body span env}, Node id →
    cfg.table.node? id = some ⟨.function params body, span⟩ → renumbering.Known env →
    ∀ serial, renumbering.Valid ⟨serial, params, body, env⟩
  failed : ∀ e, Stops (.failed e)
  dangling : ∀ {id}, Node id → ¬ cfg.table.Present id → Stops (.fault .dangling)
  params : ∀ {c}, renumbering.Valid c → cfg.table.params? c.params = none →
    Stops (.fault .dangling)

namespace Region

variable {cfg : Setting} {R : Region cfg} {g : Scopes} {d : Nat} {s s' : State} {v v' : Value}
  {α β : Type}

/-- Two states that agree in a region. What is outside of it is still as it was in the first one. -/
structure Same (R : Region cfg) (g : Scopes) (d : Nat) (s s' : State) : Prop where
  scopes : R.renumbering.Maps s.scopes s'.scopes
  outside : ∀ id, ¬ R.renumbering.Known id → s.scopes.scope? id = g.scope? id
  printed : s'.printed.toList.map Value.text = s.printed.toList.map Value.text
  closures : s'.closures = s.closures
  depth : s.depth = d ∧ s'.depth = d

def SameScope (R : Region cfg) (env env' : ScopeId) : Prop :=
  R.renumbering.Known env ∧ env' = R.renumbering.number env

def SameClosure (R : Region cfg) (c c' : Closure) : Prop :=
  R.renumbering.Valid c ∧ c' = c.renumber R.renumbering.number

def SameStop (R : Region cfg) (stop stop' : Stop) : Prop := stop' = stop ∧ R.Stops stop

theorem like_renumber (hHolds : R.renumbering.Holds v) :
    Value.Like R.SameClosure v (v.renumber R.renumbering.number) := by
  cases v with
  | closure c => exact .closure ⟨hHolds c rfl, rfl⟩
  | _ => exact .of_plain nofun

theorem of_like (h : Value.Like R.SameClosure v v') :
    R.renumbering.Holds v ∧ v' = v.renumber R.renumbering.number := by
  cases h with
  | closure hSame =>
    obtain ⟨hValid, rfl⟩ := hSame
    refine ⟨fun c hClosure => ?_, rfl⟩
    cases hClosure
    exact hValid
  | _ => exact ⟨nofun, rfl⟩

namespace Same

/-- A write in the region. -/
theorem write {target : ScopeId} (h : R.Same g d s s') (hTarget : R.renumbering.Known target)
    (hValue : R.renumbering.Holds v) (name : Name) :
    R.Same g d { s with scopes := s.scopes.write target name v }
      { s' with
        scopes := s'.scopes.write (R.renumbering.number target) name
          (v.renumber R.renumbering.number) } := by
  refine ⟨h.scopes.write hTarget hValue name, fun id hId => ?_, h.printed, h.closures, h.depth⟩
  have hOther : target ≠ id := fun hSame => hId (hSame ▸ hTarget)
  exact (Scopes.scope?_write.trans (if_neg hOther)).trans (h.outside id hId)

/-- A new scope in the region. -/
theorem enclose {outer : ScopeId} (h : R.Same g d s s') (hOuter : R.renumbering.Known outer) :
    R.Same g d { s with scopes := (s.scopes.enclose outer).2 }
      { s' with scopes := (s'.scopes.enclose (R.renumbering.number outer)).2 } := by
  refine ⟨h.scopes.enclose hOuter, fun id hId => ?_, h.printed, h.closures, h.depth⟩
  have hOther : id ≠ s.scopes.all.size := fun hSame => hId (hSame ▸ h.scopes.fresh.1)
  exact (Scopes.scope?_enclose.trans (if_neg hOther)).trans (h.outside id hId)

/-- The depths are counted alike. -/
theorem changeDepth (f : Nat → Nat) (h : R.Same g d s s') :
    R.Same g (f d) { s with depth := f s.depth } { s' with depth := f s'.depth } :=
  ⟨h.scopes, h.outside, h.printed, h.closures, congrArg f h.depth.1, congrArg f h.depth.2⟩

end Same

/-! ## Evaluations in a region -/

/-- Effects that do the same to states that agree in the region. -/
abbrev SameEffect (R : Region cfg) (g : Scopes) (d : Nat) {α β : Type} (P : α → β → Prop) :
    Effect α → Effect β → Prop :=
  Simulates (R.Same g d) R.SameStop P

section Effects

variable {env env' : ScopeId} {c c' : Closure} (hScope : R.SameScope env env')
  (hClosure : R.SameClosure c c') (hLike : Value.Like R.SameClosure v v')

include hScope in
theorem resolve_same (name : Name) :
    R.SameEffect g d (Value.Like R.SameClosure) (resolve env name) (resolve env' name) := by
  obtain ⟨hKnown, rfl⟩ := hScope
  intro s s' hSame
  obtain ⟨hValue, hHolds⟩ := hSame.scopes.resolve_eq hKnown name
  refine .ok ?_ hSame
  rw [hValue]
  exact like_renumber hHolds

include hLike in
/-- The same text is printed. -/
theorem print_same : R.SameEffect g d (fun _ _ => True) (print v) (print v') := by
  obtain ⟨-, rfl⟩ := of_like hLike
  intro s s' hSame
  refine .ok trivial ⟨hSame.scopes, hSame.outside, ?_, hSame.closures, hSame.depth⟩
  simp only [Array.toList_push, List.map_append, hSame.printed, List.map_cons, List.map_nil,
    Value.text_renumber]

include hScope hLike in
theorem declare_same (name : Name) (span : Option Span) :
    R.SameEffect g d (fun _ _ => True) (declare env name v span) (declare env' name v' span) := by
  obtain ⟨hKnown, rfl⟩ := hScope
  obtain ⟨hHolds, rfl⟩ := of_like hLike
  intro s s' hSame
  rw [declare_eq, declare_eq, hSame.scopes.binds_eq hKnown]
  split
  · exact .error ⟨rfl, R.failed _⟩ hSame
  · exact .ok trivial (hSame.write hKnown hHolds name)

include hScope hLike in
theorem assign_same (name : Name) (span : Option Span) :
    R.SameEffect g d (fun _ _ => True) (assign env name v span) (assign env' name v' span) := by
  obtain ⟨hKnown, rfl⟩ := hScope
  obtain ⟨hHolds, rfl⟩ := of_like hLike
  intro s s' hSame
  obtain ⟨hAssignee, hTarget⟩ := hSame.scopes.assignee_eq hKnown name
  rw [assign_eq, assign_eq, hAssignee]
  exact .ok trivial (hSame.write hTarget hHolds name)

include hScope in
/-- Both closures have the same serial number. -/
theorem makeClosure_same {id : NodeId} {params : Slice} {body : NodeId} {span : Span}
    (hNode : R.Node id) (hFunction : cfg.table.node? id = some ⟨.function params body, span⟩) :
    R.SameEffect g d (Value.Like R.SameClosure) (makeClosure params body env)
      (makeClosure params body env') := by
  obtain ⟨hKnown, rfl⟩ := hScope
  intro s s' hSame
  have hValid := R.closure hNode hFunction hKnown s.closures
  have hNext := congrArg (· + 1) hSame.closures
  refine .ok (.closure ⟨hValid, ?_⟩)
    ⟨hSame.scopes, hSame.outside, hSame.printed, hNext, hSame.depth⟩
  rw [hSame.closures]
  rfl

include hClosure in
/-- The checks of an application leave the states as they are. -/
theorem permit_same (supplied : Nat) (span : Span) :
    R.SameEffect g d (fun names names' => names = names' ∧ d < cfg.maxDepth)
      (permit cfg c supplied span) (permit cfg c' supplied span) := by
  obtain ⟨hValid, rfl⟩ := hClosure
  intro s s' hSame
  obtain ⟨hDepth, hDepth'⟩ := hSame.depth
  have hParams' : (c.renumber R.renumbering.number).params = c.params := rfl
  rw [permit_eq, permit_eq, hDepth, hDepth', hParams']
  by_cases hLimit : cfg.maxDepth ≤ d
  · rw [if_pos hLimit, if_pos hLimit]
    exact .error ⟨rfl, R.failed _⟩ hSame
  · rw [if_neg hLimit, if_neg hLimit]
    cases hParams : cfg.table.params? c.params with
    | none => exact .error ⟨rfl, R.params hValid hParams⟩ hSame
    | some params =>
      by_cases hArity : cfg.policy = .strict ∧ supplied < params.length
      · simp only [if_pos hArity]
        exact .error ⟨rfl, R.failed _⟩ hSame
      · simp only [if_neg hArity]
        exact .ok ⟨rfl, Nat.lt_of_not_le hLimit⟩ hSame

include hClosure in
theorem enclose_same : R.SameEffect g d R.SameScope (onScopes (·.enclose c.scope))
    (onScopes (·.enclose c'.scope)) := by
  obtain ⟨hValid, rfl⟩ := hClosure
  intro s s' hSame
  have hKnown := R.renumbering.known_of_valid hValid
  obtain ⟨hFresh, hNumber⟩ := hSame.scopes.fresh
  exact .ok ⟨hFresh, hNumber.symm⟩ (hSame.enclose hKnown)

theorem entered_same {P : α → β → Prop} {x : Effect α} {y : Effect β}
    (h : R.SameEffect g (d + 1) P x y) : R.SameEffect g d P (entered x) (entered y) := by
  intro s s' hSame
  have hBody := h _ _ (hSame.changeDepth (· + 1))
  unfold entered
  generalize x { s with depth := s.depth + 1 } = r at hBody
  generalize y { s' with depth := s'.depth + 1 } = r' at hBody
  cases hBody with
  | ok hValue hDeep => exact .ok hValue (hDeep.changeDepth (· - 1))
  | error hCause hDeep => exact .error hCause (hDeep.changeDepth (· - 1))

end Effects

/-- Two evaluations in the same region of different scopes. -/
def coupling (R : Region cfg) (g : Scopes) : Coupling cfg cfg where
  Rel d := R.SameEffect g d
  SameScope := R.SameScope
  SameClosure := R.SameClosure
  Node := R.Node
  Fuel n n' := n' = n ∧ R.Stops (.fault .outOfFuel)
  Deeper d := d < cfg.maxDepth
  sameTable := .refl cfg
  operand := R.operand
  body := by
    rintro c _ ⟨hValid, rfl⟩
    exact ⟨rfl, R.body hValid⟩
  pure := .pure
  bind := .bind
  fail _ := .throw ⟨rfl, R.failed _⟩
  dangling hNode hAbsent := .throw ⟨rfl, R.dangling hNode hAbsent⟩
  spent := by
    rintro d α β n P y ⟨rfl, hStops⟩ hSpent
    rw [hSpent rfl]
    exact .throw ⟨rfl, hStops⟩
  burn := by
    rintro n _ ⟨rfl, hStops⟩
    exact ⟨n, rfl, rfl, hStops⟩
  resolve name hScope := resolve_same hScope name
  print := print_same
  declare name span hScope hLike := declare_same hScope hLike name span
  assign name span hScope hLike := assign_same hScope hLike name span
  makeClosure hNode hFunction hScope := makeClosure_same hScope hNode hFunction
  permit supplied span hClosure := permit_same hClosure supplied span
  enclose := enclose_same
  entered := entered_same

/-- Where one of two evaluations in the same region ends, the other one ends in the same way. -/
theorem settles_same {id : NodeId} {env env' : ScopeId} {result : Except EvalError Value}
    {t : State} (hStops : R.Stops (.fault .outOfFuel)) (hNode : R.Node id)
    (hEnv : R.SameScope env env') (hSame : R.Same g d s s')
    (hEnds : Settles cfg id env s result t) :
    ∃ t', Settles cfg id env' s' (result.map (·.renumber R.renumbering.number)) t' ∧
      R.Same g d t t' := by
  obtain ⟨fuel, hRun⟩ := hEnds
  have hFuel : (R.coupling g).Fuel fuel fuel := ⟨rfl, hStops⟩
  have hAgree := (R.coupling g).eval_rel (d := d) hFuel hNode hEnv s s' hSame
  rw [settle_eq_ok] at hRun
  rw [hRun] at hAgree
  generalize hOther : eval cfg fuel id env' s' = r at hAgree
  cases result with
  | ok v =>
    cases hAgree with
    | ok hValue hState =>
      obtain ⟨-, rfl⟩ := of_like hValue
      exact ⟨_, ⟨fuel, settle_eq_ok.mpr hOther⟩, hState⟩
  | error e =>
    cases hAgree with
    | error hCause hState =>
      obtain ⟨rfl, -⟩ := hCause
      exact ⟨_, ⟨fuel, settle_eq_ok.mpr hOther⟩, hState⟩

/-- The evaluation of any node, confined to some scopes. -/
def ofScopes (cfg : Setting) (r : Renumbering) (hValid : ∀ c, r.Known c.scope → r.Valid c) :
    Region cfg where
  renumbering := r
  Node _ := True
  Stops _ := True
  operand _ _ _ := trivial
  body _ := trivial
  closure _ _ hKnown _ := hValid _ hKnown
  failed _ := trivial
  dangling _ _ := trivial
  params _ _ := trivial

end Region

/-! ## Other scopes beside the reachable ones -/

/-- Numbers after those given so far, counted from another number on. -/
def shift (old new id : Nat) : Nat := if id < old then id else new + (id - old)

theorem shift_add (old new i : Nat) : shift old new (old + i) = new + i := by
  unfold shift
  rw [if_neg (Nat.not_lt.mpr (Nat.le_add_right old i)), Nat.add_sub_cancel_left]

theorem shift_lt_iff {old new a b : Nat} (ha : a < old → a < new) (hb : b < old → b < new) :
    shift old new a < shift old new b ↔ a < b := by
  unfold shift
  split <;> split <;> omega

/-- The numbers of scopes beside other ones: those that are made come after the ones there. -/
def beside (g g' : Scopes) : ScopeId → ScopeId := shift g.all.size g'.all.size

section Beside

variable {g g' : Scopes} {env : ScopeId}
  (hSame : ∀ id, g.Reachable env id → g'.scope? id = g.scope? id)

include hSame in
theorem lt_size_of_accessible {id : ScopeId} (h : g.Accessible env id) (hOld : id < g.all.size) :
    id < g'.all.size := by
  have hScope : g'.scope? id = some g.all[id] := by
    rw [hSame id (h.reachable hOld)]
    exact Array.getElem?_eq_getElem hOld
  exact Scopes.lt_size_of_scope? hScope

/-- What is accessible from a scope, beside other scopes. -/
def accessibleBeside : Renumbering :=
  g.accessible env (fun _ => True) (beside g g') g'.all.size (shift_add g.all.size g'.all.size)
    fun _ _ ha hb => shift_lt_iff (lt_size_of_accessible hSame ha) (lt_size_of_accessible hSame hb)

variable (hExists : ∀ id, g.Reachable env id → id < g.all.size)

include hSame hExists

/-- A reachable scope refers to reachable scopes alone, so no number in it changes. -/
theorem scope?_beside (id : ScopeId) (hId : g.Accessible env id) :
    g'.scope? (beside g g' id) = (g.scope? id).map (·.renumber (beside g g')) := by
  by_cases hOld : id < g.all.size
  · have hReached := hId.reachable hOld
    have hKept : ∀ other, g.Reachable env other → beside g g' other = other :=
      fun other hOther => if_pos (hExists other hOther)
    rw [hKept id hReached, hSame id hReached]
    cases hScope : g.scope? id with
    | none => rfl
    | some scope =>
      refine congrArg some (Scope.renumber_eq (beside g g') ?_ ?_).symm
      · intro outer hParent
        refine hKept outer (hReached.parent ?_)
        rw [Scopes.parent?, hScope]
        exact hParent
      · intro name c hMem
        exact hKept c.scope (hReached.captured ⟨scope, name, hScope, hMem⟩)
  · have hNew : g'.all.size ≤ beside g g' id := by
      rw [beside, shift, if_neg hOld]
      exact Nat.le_add_right _ _
    have hNone : g.scope? id = none := Array.getElem?_eq_none (Nat.le_of_not_lt hOld)
    have hNone' : g'.scope? (beside g g' id) = none := Array.getElem?_eq_none hNew
    rw [hNone, hNone']
    rfl

theorem accessibleBeside_maps : (accessibleBeside hSame).Maps g g' :=
  Scopes.accessible_maps (scope?_beside hSame hExists) fun _ _ _ _ => trivial

end Beside

/-- Where an evaluation ends, it ends in the same way beside other scopes. -/
theorem settles_beside {cfg : Setting} {id : NodeId} {env : ScopeId} {s t : State} {g' : Scopes}
    {result : Except EvalError Value}
    (hExists : ∀ e, s.scopes.Reachable env e → e < s.scopes.all.size)
    (hSame : ∀ e, s.scopes.Reachable env e → g'.scope? e = s.scopes.scope? e)
    (hEnds : Settles cfg id env s result t) :
    ∃ t', Settles cfg id env { s with scopes := g' }
        (result.map (·.renumber (beside s.scopes g'))) t' ∧
      (Region.ofScopes cfg (accessibleBeside hSame) fun _ hKnown => ⟨hKnown, trivial⟩).Same
        s.scopes s.depth t t' := by
  let R := Region.ofScopes cfg (accessibleBeside hSame) fun _ hKnown => ⟨hKnown, trivial⟩
  have hEnv : R.SameScope env env := ⟨.inl .self, (if_pos (hExists env .self)).symm⟩
  have hStart : R.Same s.scopes s.depth s { s with scopes := g' } :=
    ⟨accessibleBeside_maps hSame hExists, fun _ _ => rfl, rfl, rfl, rfl, rfl⟩
  exact Region.settles_same trivial trivial hEnv hStart hEnds

/-- Where all scopes exist that can be reached from the scope of an evaluation, it does nothing to
any other one. Beside any others it has the same result and prints the same, and the scopes that can
be reached and those that were made are the same in the end. -/
theorem reachable_suffices (cfg : Setting) (id : NodeId) (env : ScopeId) (s : State)
    (hExists : ∀ e, s.scopes.Reachable env e → e < s.scopes.all.size)
    {result : Except EvalError Value} {t : State} (hEnds : Settles cfg id env s result t) :
    (∀ e < s.scopes.all.size, ¬ s.scopes.Reachable env e →
      t.scopes.scope? e = s.scopes.scope? e) ∧
    ∀ g' : Scopes, (∀ e, s.scopes.Reachable env e → g'.scope? e = s.scopes.scope? e) →
      ∃ t', Settles cfg id env { s with scopes := g' }
          (result.map (·.renumber (beside s.scopes g'))) t' ∧
        t'.printed.toList.map Value.text = t.printed.toList.map Value.text ∧
        ∀ e, s.scopes.Reachable env e ∨ s.scopes.all.size ≤ e →
          t'.scopes.scope? (beside s.scopes g' e)
            = (t.scopes.scope? e).map (·.renumber (beside s.scopes g')) := by
  refine ⟨fun e hOld hUnreached => ?_, fun g' hSame => ?_⟩
  · obtain ⟨t', -, hEnd⟩ := settles_beside hExists (fun _ _ => rfl) hEnds
    exact hEnd.outside e fun hAccessible => hUnreached (hAccessible.reachable hOld)
  · obtain ⟨t', hEnds', hEnd⟩ := settles_beside hExists hSame hEnds
    exact ⟨t', hEnds', hEnd.printed, hEnd.scopes.scope⟩

/-- The table of `(function (y) { print(x); function () y; })(7);`, with root 7. -/
def closureMaker : NodeTable :=
  ⟨#[⟨.ref ⟨2⟩, ⟨22, 23⟩⟩, ⟨.print 0, ⟨16, 24⟩⟩, ⟨.ref ⟨1⟩, ⟨38, 39⟩⟩,
    ⟨.function ⟨0, 0⟩ 2, ⟨26, 40⟩⟩, ⟨.sequence 1 3, ⟨16, 40⟩⟩, ⟨.function ⟨0, 1⟩ 4, ⟨1, 42⟩⟩,
    ⟨.int 7, ⟨44, 45⟩⟩, ⟨.call 5 ⟨0, 1⟩, ⟨1, 46⟩⟩], #[6], #[⟨1⟩]⟩

/-- A root that binds `x`, and a scope that cannot be reached from it. -/
def oneBeside : Scopes := ⟨#[⟨[(⟨2⟩, .int 1)], none⟩, ⟨[(⟨2⟩, .null)], none⟩]⟩

/-- The same root, and two scopes that cannot be reached from it. -/
def twoBeside : Scopes :=
  ⟨#[⟨[(⟨2⟩, .int 1)], none⟩, ⟨[], some 0⟩, ⟨[(⟨1⟩, .bool true)], some 1⟩]⟩

/-- Beside one scope or two, the program prints the same and makes the same closure, in scope 2 or
in scope 3. -/
theorem reachable_suffices_closureMaker :
    (∀ e, oneBeside.Reachable 0 e → e < oneBeside.all.size) ∧
    (∀ e, oneBeside.Reachable 0 e → twoBeside.scope? e = oneBeside.scope? e) ∧
    ∃ t t',
      Settles ⟨closureMaker, .strict, 1⟩ 7 0 { State.initial with scopes := oneBeside }
        (.ok (.closure ⟨1, ⟨0, 0⟩, 2, 2⟩)) t ∧
      Settles ⟨closureMaker, .strict, 1⟩ 7 0 { State.initial with scopes := twoBeside }
        (.ok (.closure ⟨1, ⟨0, 0⟩, 2, 3⟩)) t' ∧
      t.scopes.scope? 1 = oneBeside.scope? 1 ∧ t'.scopes.scope? 3 = t.scopes.scope? 2 ∧
      t'.printed.toList.map Value.text = t.printed.toList.map Value.text := by
  have hRoot : ∀ e, oneBeside.Reachable 0 e → e = 0 := by
    intro e hReached
    induction hReached with
    | self => rfl
    | parent _ hParent ih =>
      subst ih
      cases hParent
    | captured _ hStores ih =>
      subst ih
      obtain ⟨scope, name, hScope, hMem⟩ := hStores
      cases hScope
      cases hMem with
      | tail _ hMem => cases hMem
  have hExists : ∀ e, oneBeside.Reachable 0 e → e < oneBeside.all.size := by
    intro e hReached
    rw [hRoot e hReached]
    decide
  have hSame : ∀ e, oneBeside.Reachable 0 e → twoBeside.scope? e = oneBeside.scope? e := by
    intro e hReached
    rw [hRoot e hReached]
    rfl
  have hEnds : Settles ⟨closureMaker, .strict, 1⟩ 7 0 { State.initial with scopes := oneBeside }
      (.ok (.closure ⟨1, ⟨0, 0⟩, 2, 2⟩)) _ := ⟨6, rfl⟩
  obtain ⟨hOutside, hBeside⟩ := reachable_suffices _ 7 0 _ hExists hEnds
  obtain ⟨t', hEnds', hPrinted, hScopes⟩ := hBeside twoBeside hSame
  refine ⟨hExists, hSame, _, t', hEnds, hEnds', ?_, ?_, hPrinted⟩
  · exact hOutside 1 (by decide) fun hReached => absurd (hRoot 1 hReached) (by decide)
  · exact (hScopes 2 (.inr (by decide))).trans rfl

end Eval

end FeatherScript
