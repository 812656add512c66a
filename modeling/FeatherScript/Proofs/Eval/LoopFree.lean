import FeatherScript.Proofs.Eval.Reachability
import FeatherScript.Proofs.Tree.WellFormed

/-!
# Programs without loops

A program without loops ends, however it recurses and whatever closures it passes around. Inside one
body the evaluation goes from a node to its operands, which stand before it. It enters another body
only after it has made sure that fewer calls are nested than may be. So the calls that may still be
nested, and then the number of the node, bound the nesting of the evaluation.

* `NodeTable.LoopFree`, `NodeTable.Provides`: tables without loops, and their closures.
* `WellFormed.operand_lt`, `WellFormed.present`: what evaluation relies on in a well-formed table.
* `depthBound`: fuel that suffices.
* `loopFree_settles`: every evaluation ends with a value or an error.
-/

namespace FeatherScript

/-! ## Tables without loops -/

def Form.IsLoop : Form → Prop
  | .loop _ _ => True
  | _ => False

instance : (form : Form) → Decidable form.IsLoop
  | .loop _ _ => inferInstanceAs (Decidable True)
  | .int _ | .bool _ | .null | .ref _ | .print _ | .binary .. | .branch .. | .sequence .. |
    .declare .. | .assign .. | .function .. | .call .. => inferInstanceAs (Decidable False)

namespace NodeTable

/-- No node of the table is a loop. -/
def LoopFree (t : NodeTable) : Prop :=
  ∀ id, ∀ hId : id < t.nodes.size, ¬ t.nodes[id].form.IsLoop

instance (t : NodeTable) : Decidable t.LoopFree :=
  inferInstanceAs (Decidable (∀ id, ∀ hId : id < t.nodes.size, ¬ t.nodes[id].form.IsLoop))

/-- A closure is that of a function of the table. -/
def Provides (t : NodeTable) (c : Closure) : Prop :=
  ∃ id span, t.node? id = some ⟨.function c.params c.body, span⟩

variable {t : NodeTable} {id child : NodeId} {n : Node}

theorem LoopFree.not_loop (h : t.LoopFree) (hNode : t.node? id = some n) : ¬ n.form.IsLoop := by
  obtain ⟨hId, rfl⟩ := Array.getElem?_eq_some_iff.mp hNode
  exact h id hId

namespace WellFormed

variable (hFormed : t.WellFormed)

include hFormed

theorem fits (hNode : t.node? id = some n) : id < t.size ∧ n.form.FitsBelow t id := by
  obtain ⟨hId, rfl⟩ := Array.getElem?_eq_some_iff.mp hNode
  exact ⟨hId, hFormed id hId⟩

/-- The nodes that are evaluated with a node stand before it. -/
theorem operand_lt (hNode : t.node? id = some n) (hMem : child ∈ n.form.operands t) :
    child < id := by
  obtain ⟨-, hFits⟩ := hFormed.fits hNode
  obtain ⟨form, span⟩ := n
  cases form with
  | int | bool | null | ref | function => cases hMem
  | print a | declare _ a | assign _ a =>
    obtain rfl : child = a := List.mem_singleton.mp hMem
    exact hFits
  | binary _ a b | loop a b | sequence a b =>
    rcases List.mem_pair.mp hMem with rfl | rfl
    · exact hFits.1
    · exact hFits.2
  | branch c a b =>
    obtain ⟨hCondition, hConsequent, hAlternative⟩ := hFits
    have hParts : child = c ∨ child = a ∨ b = some child := by
      simpa [Form.operands, Form.children, Form.parts, Form.arguments] using hMem
    rcases hParts with rfl | rfl | hOther
    · exact hCondition
    · exact hConsequent
    · exact hAlternative child hOther
  | call callee args =>
    obtain ⟨hCallee, -, hArgs⟩ := hFits
    rcases List.mem_cons.mp hMem with rfl | hArg
    · exact hCallee
    · exact hArgs child hArg

theorem present (hId : id < t.size) : t.Present id := by
  have hNode : t.node? id = some t.nodes[id] := Array.getElem?_eq_getElem hId
  refine ⟨_, hNode, ?_⟩
  have hFits := hFormed id hId
  generalize t.nodes[id] = n at hFits
  obtain ⟨form, span⟩ := n
  cases form with
  | call callee args => exact ⟨_, if_pos hFits.2.1⟩
  | _ => trivial

/-- The closures of a well-formed table have parameters and a body. -/
theorem closure {c : Closure} (h : t.Provides c) :
    c.body < t.size ∧ ∃ names, t.params? c.params = some names := by
  obtain ⟨id, span, hNode⟩ := h
  obtain ⟨hId, hParams, hBody⟩ := hFormed.fits hNode
  exact ⟨Nat.lt_trans hBody hId, _, if_pos hParams⟩

end WellFormed

end NodeTable

namespace Eval

/-! ## Ends of evaluations -/

/-- Evaluations in a well-formed table, which stop for errors of the program alone. -/
def Region.ofTable {cfg : Setting} (hFormed : cfg.table.WellFormed) (r : Renumbering)
    (hValid : ∀ c, r.Valid c ↔ r.Known c.scope ∧ cfg.table.Provides c) : Region cfg where
  renumbering := r
  Node id := id < cfg.table.size
  Stops stop := ∃ e, stop = .failed e
  operand hId hNode hMem := Nat.lt_trans (hFormed.operand_lt hNode hMem) hId
  body hClosure := (hFormed.closure ((hValid _).mp hClosure).2).1
  closure {id params body span env} _ hNode hKnown serial :=
    (hValid ⟨serial, params, body, env⟩).mpr ⟨hKnown, id, span, hNode⟩
  failed e := ⟨e, rfl⟩
  dangling hId hAbsent := absurd (hFormed.present hId) hAbsent
  params hClosure hNone := by
    obtain ⟨names, hSome⟩ := (hFormed.closure ((hValid _).mp hClosure).2).2
    cases hNone.symm.trans hSome

section Bound

variable {cfg : Setting} {d : Nat}

/-- Enough fuel for a node inside a number of closure bodies. -/
def depthBound (cfg : Setting) (d id : Nat) : Nat :=
  (cfg.maxDepth - d) * cfg.table.size + id

/-- One body deeper, less fuel is enough for any node. -/
theorem depthBound_lt {id body : Nat} (hDeeper : d < cfg.maxDepth)
    (hBody : body < cfg.table.size) : depthBound cfg (d + 1) body < depthBound cfg d id := by
  have hCalls : cfg.maxDepth - d = (cfg.maxDepth - (d + 1)) + 1 := by omega
  unfold depthBound
  rw [hCalls, Nat.succ_mul]
  omega

/-- In a region of the nodes of a table without loops, the bound is fuel enough: the evaluation
stops for no other causes than those of the region. -/
theorem loopFree_rel (hFormed : cfg.table.WellFormed) (hLoopFree : cfg.table.LoopFree)
    {R : Region cfg} (hNodes : ∀ id, R.Node id → id < cfg.table.size) (g : Scopes) {fuel : Nat}
    {id : NodeId} {env env' : ScopeId} (hNode : R.Node id) (hEnv : R.SameScope env env')
    (hFuel : depthBound cfg d id < fuel) :
    R.SameEffect g d (Value.Like R.SameClosure) (eval cfg fuel id env) (eval cfg fuel id env') := by
  -- Operands have smaller numbers, and a body is entered only where the depth allows it.
  induction fuel generalizing d id env env' with
  | zero => cases hFuel
  | succ fuel ih =>
    have hRest : depthBound cfg d id ≤ fuel := Nat.le_of_lt_succ hFuel
    refine (R.coupling g).nodeWith_rel hNode hEnv ?_ (fun n hFound child hMem => ?_) ?_
    · exact fun c b span hFound => absurd trivial (hLoopFree.not_loop hFound)
    · have hLess : depthBound cfg d child < depthBound cfg d id :=
        Nat.add_lt_add_left (hFormed.operand_lt hFound hMem) _
      exact ih (R.operand hNode hFound hMem) hEnv (Nat.lt_of_lt_of_le hLess hRest)
    · intro c c' inner inner' hDeeper hClosure hInner
      have hBody : R.Node c.body := R.body hClosure.1
      have hLess : depthBound cfg (d + 1) c.body < depthBound cfg d id :=
        depthBound_lt hDeeper (hNodes c.body hBody)
      exact ih hBody hInner (Nat.lt_of_lt_of_le hLess hRest)

end Bound

/-- Without loops every evaluation ends with a value or an error. -/
theorem loopFree_settles (cfg : Setting) (hFormed : cfg.table.WellFormed)
    (hLoopFree : cfg.table.LoopFree) {id : NodeId} (hId : id < cfg.table.size) (env : ScopeId)
    (s : State) (hClosures : ∀ e c, s.scopes.Reachable env e → s.scopes.Stores e c →
      cfg.table.Provides c) : ∃ result t, Settles cfg id env s result t := by
  -- The evaluation is compared with itself, in the same scopes.
  let r := s.scopes.accessible env cfg.table.Provides (fun e => e) s.scopes.all.size
    (fun _ => rfl) fun _ _ _ _ => Iff.rfl
  let R := Region.ofTable hFormed r fun _ => Iff.rfl
  have hMaps : r.Maps s.scopes s.scopes := by
    refine Scopes.accessible_maps (fun e _ => ?_) hClosures
    cases s.scopes.scope? e with
    | none => rfl
    | some scope =>
      exact congrArg some (scope.renumber_eq _ (fun _ _ => rfl) fun _ _ _ => rfl).symm
  have hEnv : R.SameScope env env := ⟨.inl .self, rfl⟩
  have hStart : R.Same s.scopes s.depth s s := ⟨hMaps, fun _ _ => rfl, rfl, rfl, rfl, rfl⟩
  have hNodes : ∀ id, R.Node id → id < cfg.table.size := fun _ hNode => hNode
  have hEnough : depthBound cfg s.depth id < depthBound cfg s.depth id + 1 := Nat.lt_succ_self _
  have hAgree := loopFree_rel hFormed hLoopFree hNodes s.scopes hId hEnv hEnough s s hStart
  cases hRun : eval cfg (depthBound cfg s.depth id + 1) id env s with
  | ok v t => exact ⟨.ok v, t, _, settle_eq_ok.mpr hRun⟩
  | error stop t =>
    rw [hRun] at hAgree
    cases hAgree with
    | error hCause hState =>
      obtain ⟨-, e, rfl⟩ := hCause
      exact ⟨.error e, t, _, settle_eq_ok.mpr hRun⟩

/-- The table of `function w(f) f(f);; w(w);`, with root 8. -/
def selfApplication : NodeTable :=
  ⟨#[⟨.ref ⟨2⟩, ⟨14, 15⟩⟩, ⟨.ref ⟨2⟩, ⟨16, 17⟩⟩, ⟨.call 0 ⟨0, 1⟩, ⟨14, 18⟩⟩,
    ⟨.function ⟨0, 1⟩ 2, ⟨0, 19⟩⟩, ⟨.declare ⟨1⟩ 3, ⟨0, 19⟩⟩, ⟨.ref ⟨1⟩, ⟨21, 22⟩⟩,
    ⟨.ref ⟨1⟩, ⟨23, 24⟩⟩, ⟨.call 5 ⟨1, 1⟩, ⟨21, 25⟩⟩, ⟨.sequence 4 7, ⟨0, 25⟩⟩],
    #[1, 6], #[⟨2⟩]⟩

/-- A root that binds `w` to the function of that table. -/
def boundToItself : Scopes := ⟨#[⟨[(⟨1⟩, .closure ⟨0, ⟨0, 1⟩, 2, 0⟩)], none⟩]⟩

/-- A function that calls itself again and again ends too. -/
theorem loopFree_settles_selfApplication :
    selfApplication.WellFormed ∧ selfApplication.LoopFree ∧
    (∀ e c, boundToItself.Reachable 0 e → boundToItself.Stores e c →
      selfApplication.Provides c) ∧
    ∃ result t, Settles ⟨selfApplication, .strict, 1000⟩ 7 0
      { State.initial with scopes := boundToItself } result t := by
  have hFormed : selfApplication.WellFormed := by decide
  have hLoopFree : selfApplication.LoopFree := by decide
  have hClosures : ∀ e c, boundToItself.Reachable 0 e → boundToItself.Stores e c →
      selfApplication.Provides c := by
    rintro e c - ⟨scope, name, hScope, hMem⟩
    have hOnly : scope = ⟨[(⟨1⟩, .closure ⟨0, ⟨0, 1⟩, 2, 0⟩)], none⟩ :=
      List.mem_singleton.mp (Array.mem_toList_iff.mpr (Array.mem_of_getElem? hScope))
    rw [hOnly] at hMem
    cases List.mem_singleton.mp hMem
    exact ⟨3, ⟨0, 19⟩, rfl⟩
  exact ⟨hFormed, hLoopFree, hClosures, loopFree_settles ⟨selfApplication, .strict, 1000⟩ hFormed
    hLoopFree (by decide) 0 { State.initial with scopes := boundToItself } hClosures⟩

end Eval

end FeatherScript
