import FeatherScript.Proofs.Eval.Failure
import FeatherScript.Proofs.Eval.LexicalScopes
import FeatherScript.Proofs.Eval.LoopFree

/-!
# References that lead somewhere

In a well-formed table, the children of nodes and the slices of calls and functions are there. So
what evaluation refers to is there as long as closures come from functions of the table. That they
do is an invariant of evaluation: a closure that is bound in a scope, passed or returned was made
from a function.

* `NodeTable.Covers`: the parameters and the body of a closure are in a table.
* `NodeTable.Supplies`: so are those of all closures that scopes hold.
* `fromFunctions`: the invariant.
* `Moment.InBounds`, `inBounds_of_visits`: what holds at every moment of a run.
* `eval_not_dangling`, `call_not_dangling`: what follows of evaluations and of applications by the
  host.
-/

namespace FeatherScript

/-! ## Closures of a table -/

namespace NodeTable

/-- A closure is that of a function of the table, and its parameters and its body are there. -/
structure Covers (t : NodeTable) (c : Closure) : Prop where
  function : t.Provides c
  params : c.params.stop ≤ t.params.size
  body : c.body < t.size

/-- If a value is a closure, it is that of a function of the table. -/
def ProvidesValue (t : NodeTable) (v : Value) : Prop := ∀ c, v = .closure c → t.Provides c

/-- All closures that scopes hold are those of functions of the table. -/
def Supplies (t : NodeTable) (g : Scopes) : Prop := ∀ id c, g.Stores id c → t.Provides c

variable {t : NodeTable} {g : Scopes} {id : NodeId} {n : Node} {v : Value}

theorem WellFormed.covers {c : Closure} (hFormed : t.WellFormed) (h : t.Provides c) :
    t.Covers c := by
  obtain ⟨function, span, hNode⟩ := h
  obtain ⟨hId, hParams, hBody⟩ := hFormed.fits hNode
  exact ⟨⟨function, span, hNode⟩, hParams, Nat.lt_trans hBody hId⟩

/-- What a node of the table refers to is in the table. -/
theorem WellFormed.node (hFormed : t.WellFormed) (hId : id < t.size) :
    ∃ n, t.node? id = some n ∧ n.form.FitsBelow t id :=
  ⟨t.nodes[id], Array.getElem?_eq_getElem hId, hFormed id hId⟩

theorem providesValue_plain (h : ∀ c, v ≠ .closure c) : t.ProvidesValue v :=
  fun c hValue => absurd hValue (h c)

theorem Supplies.write {target : ScopeId} {name : Name} (h : t.Supplies g)
    (hValue : t.ProvidesValue v) : t.Supplies (g.write target name v) :=
  Scopes.stored_write h hValue

theorem Supplies.add {around : Option ScopeId} (h : t.Supplies g) :
    t.Supplies (g.add around).2 :=
  fun id c hStores => h id c (Scopes.stores_add hStores)

theorem Supplies.enclose {outer : ScopeId} (h : t.Supplies g) :
    t.Supplies (g.enclose outer).2 :=
  h.add

theorem Supplies.resolve {env : ScopeId} {name : Name} (h : t.Supplies g) :
    t.ProvidesValue (g.resolve env name) :=
  Scopes.stored_resolve h

theorem supplies_initial : t.Supplies Scopes.initial :=
  fun _ _ hStores => absurd hStores Scopes.not_stores_initial

end NodeTable

namespace Eval

open Effect

variable {cfg : Setting} {fuel : Nat} {s t : State} {m m' : Moment} {stop : Stop}

/-! ## The invariant -/

theorem supplies_bindParams {names : List Name} {args : List Value} {span : Option Span}
    {outer : ScopeId} (h : cfg.table.Supplies s.scopes)
    (hArgs : ∀ v ∈ args, cfg.table.ProvidesValue v) :
    Ensures (bindParams s.scopes.all.size span names args)
      { s with scopes := (s.scopes.enclose outer).2 } (fun t => cfg.table.Supplies t.scopes)
      fun _ _ => True := by
  refine bindParams_ensures h.enclose fun t name v hSupplies hValue _ => hSupplies.write ?_
  rcases hValue with rfl | hMem
  · exact NodeTable.providesValue_plain nofun
  · exact hArgs v hMem

/-- In a well-formed table, evaluation stays at nodes of the table, and all closures are those of
functions of the table. -/
def fromFunctions (hFormed : cfg.table.WellFormed) : Invariant cfg where
  Holds s := cfg.table.Supplies s.scopes
  Later _ _ := True
  Valid _ v := cfg.table.ProvidesValue v
  Here m := m.node < cfg.table.size
  refl _ := trivial
  trans _ _ := trivial
  valid_later _ hValid := hValid
  valid_plain := NodeTable.providesValue_plain
  inside hHere hInside _ := by
    obtain ⟨n, hNode, hMem⟩ := hInside.operand
    exact Nat.lt_trans (hFormed.operand_lt hNode hMem) hHere
  applies _ hApplies _ hClosure _ _ := by
    rw [hApplies.node_eq]
    exact (hFormed.covers (hClosure _ rfl)).body
  resolved _ hHolds := hHolds.resolve
  printed hHolds := ⟨hHolds, trivial⟩
  deeper hHolds := ⟨hHolds, trivial⟩
  declared _ _ hHolds hValid _ := ⟨hHolds.write hValid, trivial⟩
  assigned _ _ hHolds hValid := ⟨hHolds.write hValid, trivial⟩
  made _ hMakes hHolds := by
    cases hMakes with
    | function hNode =>
      refine ⟨hHolds, trivial, ?_⟩
      rintro c ⟨⟩
      exact ⟨_, _, hNode⟩
  bound hHolds _ hArgs _ :=
    Ensures.imp (supplies_bindParams hHolds hArgs) (fun _ h => ⟨h, trivial⟩) fun _ _ _ h => h

/-! ## Moments -/

/-- The evaluation of a call comes to the application of a closure to a list of arguments. -/
inductive Passes (cfg : Setting) : Moment → Closure → List Value → Prop
  | call {fuel id env s span f args c t ids values u}
      (hNode : cfg.table.node? id = some ⟨.call f args, span⟩)
      (hCallee : eval cfg fuel f env s = .ok (.closure c) t)
      (hArgs : cfg.table.args? args = some ids)
      (hValues : argumentsWith (eval cfg fuel) env ids t = .ok values u) :
      Passes cfg ⟨fuel + 1, id, env, s⟩ c values

/-- All that is referred to at a moment is in the table: its node and what this node refers to, the
closures that are bound in a scope, the one that the evaluation yields, and those that it applies or
passes. No reference that it follows leads nowhere. -/
structure Moment.InBounds (cfg : Setting) (m : Moment) : Prop where
  node : ∃ n, cfg.table.node? m.node = some n ∧ n.form.FitsBelow cfg.table m.node
  stored : ∀ id c, m.state.scopes.Stores id c → cfg.table.Covers c
  yielded : ∀ c t, m.outcome cfg = .ok (.closure c) t → cfg.table.Covers c
  passed : ∀ c values, Passes cfg m c values →
    cfg.table.Covers c ∧ ∀ c', .closure c' ∈ values → cfg.table.Covers c'
  found : ∀ t, m.outcome cfg ≠ .error (.fault .dangling) t

variable (hFormed : cfg.table.WellFormed)

include hFormed

/-- An application of a closure of the table is not refused for want of its parameters. -/
theorem Refuses.not_dangling {c : Closure} {args : List Value} {span : Span}
    (hClosure : cfg.table.Provides c) : ¬ Refuses cfg c args span s (.fault .dangling) := by
  intro h
  cases h with
  | absent _ hNone =>
    obtain ⟨-, names, hSome⟩ := hFormed.closure hClosure
    cases hNone.symm.trans hSome

theorem Passes.provides {c : Closure} {values : List Value} (hHere : m.node < cfg.table.size)
    (hSupplies : cfg.table.Supplies m.state.scopes) (h : Passes cfg m c values) :
    cfg.table.Provides c ∧ ∀ v ∈ values, cfg.table.ProvidesValue v := by
  cases h with
  | call hNode hCallee hArgs hValues =>
    have hOperands := (fromFunctions hFormed).operandsSound_of_here hHere
    have hCalled := (hOperands _ (.callee hNode) (.start hSupplies)).of_ok hCallee
    have hEnsures := Invariant.firstArguments_ensures hOperands hNode hCallee
      (hArgs.trans (congrArg some (List.append_nil _).symm)) hCalled.1
    exact ⟨hCalled.2.2 c rfl, (Ensures.of_ok hEnsures hValues).2.2⟩

/-- The step of a node of the table follows no reference that leads nowhere. -/
theorem Raises.not_dangling (hHere : m.node < cfg.table.size)
    (hSupplies : cfg.table.Supplies m.state.scopes) : ¬ Raises cfg m (.fault .dangling) := by
  intro h
  obtain ⟨n, hSome, hFits⟩ := hFormed.node hHere
  generalize hStop : Stop.fault .dangling = stop at h
  cases h with
  | absent hNone => cases hNone.symm.trans hSome
  | arguments hNode _ hNone =>
    cases hNode.symm.trans hSome
    cases hNone.symm.trans (if_pos hFits.2.1)
  -- The closure is the value of an operand, so the invariant holds of it.
  | refused hNode hCallee hArgs hValues hRefuses =>
    subst hStop
    have hPasses := Passes.call hNode hCallee hArgs hValues
    exact hRefuses.not_dangling hFormed (hPasses.provides hFormed hHere hSupplies).1
  | _ => cases hStop

/-- The invariant at every moment of a run. -/
theorem supplies_of_visits (hHere : m.node < cfg.table.size)
    (hSupplies : cfg.table.Supplies m.state.scopes) (hVisits : Visits cfg m m') :
    m'.node < cfg.table.size ∧ cfg.table.Supplies m'.state.scopes := by
  obtain ⟨hThere, hReached⟩ := (fromFunctions hFormed).holds_of_visits hHere hSupplies hVisits
  exact ⟨hThere, hReached.1⟩

/-- However an evaluation ends, all closures are those of functions of the table. -/
theorem eval_supplies {id : NodeId} {env : ScopeId} (hHere : id < cfg.table.size)
    (hSupplies : cfg.table.Supplies s.scopes) :
    Ensures (eval cfg fuel id env) s (fun t => cfg.table.Supplies t.scopes)
      fun _ v => cfg.table.ProvidesValue v :=
  have hSound := (fromFunctions hFormed).eval_ensures (m := ⟨fuel, id, env, s⟩) hHere hSupplies
  Ensures.imp hSound (fun _ h => h.1) fun _ _ _ h => h.2

theorem eval_not_dangling {id : NodeId} {env : ScopeId} (hHere : id < cfg.table.size)
    (hSupplies : cfg.table.Supplies s.scopes) :
    eval cfg fuel id env s ≠ .error (.fault .dangling) t := by
  intro h
  obtain ⟨m, u, hVisits, -, hRaises⟩ := exists_raises (m := ⟨fuel, id, env, s⟩) h
  obtain ⟨hThere, hThen⟩ := supplies_of_visits hFormed hHere hSupplies hVisits
  exact hRaises.not_dangling hFormed hThere hThen

/-- All that a run in a well-formed table refers to is in the table. -/
theorem inBounds_of_visits (hHere : m.node < cfg.table.size)
    (hSupplies : cfg.table.Supplies m.state.scopes) (hVisits : Visits cfg m m') :
    m'.InBounds cfg := by
  obtain ⟨hThere, hThen⟩ := supplies_of_visits hFormed hHere hSupplies hVisits
  refine ⟨hFormed.node hThere, fun id c hStores => hFormed.covers (hThen id c hStores), ?_, ?_, ?_⟩
  · intro c t hOutcome
    have hYields := Ensures.of_ok (eval_supplies hFormed hThere hThen) hOutcome
    exact hFormed.covers (hYields.2 c rfl)
  · intro c values hPasses
    obtain ⟨hClosure, hValues⟩ := hPasses.provides hFormed hThere hThen
    exact ⟨hFormed.covers hClosure, fun c' hMem => hFormed.covers (hValues _ hMem c' rfl)⟩
  · exact fun t => eval_not_dangling hFormed hThere hThen

/-! ## Applications by the host -/

variable {v : Value} {args : List Value}

/-- The body of a closure of the table is entered with closures of the table. -/
theorem supplies_of_enters {c : Closure} {span : Span} (hSupplies : cfg.table.Supplies s.scopes)
    (hClosure : cfg.table.Provides c) (hArgs : ∀ v ∈ args, cfg.table.ProvidesValue v)
    (hEnters : Enters cfg fuel c args span s m) :
    m.node < cfg.table.size ∧ cfg.table.Supplies m.state.scopes := by
  have hReached := (fromFunctions hFormed).reached_of_enters hSupplies
    (fun c' hSame => Value.closure.inj hSame ▸ hClosure) hArgs hEnters
  exact ⟨hEnters.node_eq ▸ (hFormed.covers hClosure).body, hReached.1⟩

/-- However an application by the host ends, all closures are those of functions of the table. -/
theorem call_supplies (hSupplies : cfg.table.Supplies s.scopes)
    (hCallee : cfg.table.ProvidesValue v) (hArgs : ∀ v ∈ args, cfg.table.ProvidesValue v) :
    Ensures (call cfg fuel v args) s (fun t => cfg.table.Supplies t.scopes)
      fun _ v => cfg.table.ProvidesValue v := by
  cases v with
  | closure c =>
    let inv := fromFunctions hFormed
    have hSound : inv.Sound s s (applyWith cfg (eval cfg fuel) c args .origin) := by
      refine inv.applyWith_sound (.start hSupplies) hCallee hArgs fun m hEnters _ => ?_
      obtain ⟨hThere, hThen⟩ := supplies_of_enters hFormed hSupplies (hCallee c rfl) hArgs hEnters
      exact inv.eval_ensures hThere hThen
    exact Ensures.imp hSound (fun _ h => h.1) fun _ _ _ h => h.2
  | _ => exact .fail hSupplies

theorem call_not_dangling (hSupplies : cfg.table.Supplies s.scopes)
    (hCallee : cfg.table.ProvidesValue v) (hArgs : ∀ v ∈ args, cfg.table.ProvidesValue v) :
    call cfg fuel v args s ≠ .error (.fault .dangling) t := by
  intro h
  cases v with
  | closure c =>
    rcases applyWith_error h with hRefuses | ⟨m, u, hEnters, hStop⟩
    · exact hRefuses.not_dangling hFormed (hCallee c rfl)
    · obtain ⟨hThere, hThen⟩ := supplies_of_enters hFormed hSupplies (hCallee c rfl) hArgs hEnters
      exact eval_not_dangling hFormed hThere hThen hStop
  | _ => cases h

end Eval

end FeatherScript
