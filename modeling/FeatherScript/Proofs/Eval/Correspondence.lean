import FeatherScript.Proofs.Scope.Correspondence

/-!
# Evaluations in corresponding states

From states with the same scopes, up to the numbers of scopes and closures, an evaluation does the
same: it has the same value or fails for the same cause, prints the same values, and leaves the same
scopes. It leaves the depth as it was. What was printed before, how many closures were made, and
which scopes there are besides, plays no part.

* `Correspondence.Between`: two states that are the same up to such numbers.
* `Correspondence.coupling`: evaluations in such states.
* `Between.eval_alike`, `Between.call_alike`: what they do.
* `Correspondence.ofClosures`: the same scopes, after different numbers of closures were made.
-/

namespace FeatherScript

namespace Correspondence

open Eval Effect

variable {C : Correspondence} {cfg : Setting} {old old' : List Value} {d : Nat} {s s' : State}
  {env env' : ScopeId} {c c' : Closure} {v v' : Value} {α β : Type}

/-- Two states with the same scopes, at the same depth. Since some values were printed, the same
values were printed in both, and as many closures were made. -/
structure Between (C : Correspondence) (old old' : List Value) (d : Nat) (s s' : State) :
    Prop where
  scopes : C.Same s.scopes s'.scopes
  printed : ∃ new, s.printed.toList = old ++ new ∧ s'.printed.toList = old' ++ new.map C.value
  closures : ∃ made, s.closures = C.here + made ∧ s'.closures = C.there + made
  depth : s.depth = d ∧ s'.depth = d

def SameScope (C : Correspondence) (env env' : ScopeId) : Prop :=
  C.scopes.Known env ∧ env' = C.scopes.number env

def SameClosure (C : Correspondence) (c c' : Closure) : Prop :=
  C.scopes.Valid c ∧ c' = C.closure c

theorem like_value (hHolds : C.Holds v) : Value.Like C.SameClosure v (C.value v) := by
  cases v with
  | closure c => exact .closure ⟨hHolds c rfl, rfl⟩
  | _ => exact .of_plain nofun

theorem of_like (h : Value.Like C.SameClosure v v') : C.Holds v ∧ v' = C.value v := by
  cases h with
  | closure hSame =>
    obtain ⟨hValid, rfl⟩ := hSame
    refine ⟨fun c hClosure => ?_, rfl⟩
    cases hClosure
    exact hValid
  | _ => exact ⟨nofun, rfl⟩

namespace Between

theorem write {target : ScopeId} (h : C.Between old old' d s s')
    (hTarget : C.scopes.Known target) (hValue : C.Holds v) (name : Name) :
    C.Between old old' d { s with scopes := s.scopes.write target name v }
      { s' with scopes := s'.scopes.write (C.scopes.number target) name (C.value v) } :=
  ⟨h.scopes.write hTarget hValue name, h.printed, h.closures, h.depth⟩

theorem enclose {outer : ScopeId} (h : C.Between old old' d s s')
    (hOuter : C.scopes.Known outer) :
    C.Between old old' d { s with scopes := (s.scopes.enclose outer).2 }
      { s' with scopes := (s'.scopes.enclose (C.scopes.number outer)).2 } :=
  ⟨h.scopes.enclose hOuter, h.printed, h.closures, h.depth⟩

theorem changeDepth (f : Nat → Nat) (h : C.Between old old' d s s') :
    C.Between old old' (f d) { s with depth := f s.depth } { s' with depth := f s'.depth } :=
  ⟨h.scopes, h.printed, h.closures, congrArg f h.depth.1, congrArg f h.depth.2⟩

end Between

/-! ## Effects -/

/-- Effects that do the same in corresponding states. -/
abbrev SameEffect (C : Correspondence) (old old' : List Value) (d : Nat) {α β : Type}
    (P : α → β → Prop) : Effect α → Effect β → Prop :=
  Simulates (C.Between old old' d) (· = ·) P

section Effects

variable (hScope : C.SameScope env env') (hClosure : C.SameClosure c c')
  (hLike : Value.Like C.SameClosure v v')

include hScope in
theorem resolve_same (name : Name) :
    C.SameEffect old old' d (Value.Like C.SameClosure) (resolve env name)
      (resolve env' name) := by
  obtain ⟨hKnown, rfl⟩ := hScope
  intro s s' hBetween
  obtain ⟨hValue, hHolds⟩ := hBetween.scopes.resolve_eq hKnown name
  refine .ok ?_ hBetween
  rw [hValue]
  exact like_value hHolds

include hLike in
theorem print_same :
    C.SameEffect old old' d (fun _ _ => True) (print v) (print v') := by
  obtain ⟨-, rfl⟩ := of_like hLike
  intro s s' hBetween
  obtain ⟨new, hNew, hNew'⟩ := hBetween.printed
  refine .ok trivial ⟨hBetween.scopes, ⟨new ++ [v], ?_, ?_⟩, hBetween.closures, hBetween.depth⟩
  · simp only [Array.toList_push, hNew, List.append_assoc]
  · simp only [Array.toList_push, hNew', List.append_assoc, List.map_append, List.map_cons,
      List.map_nil]

include hScope hLike in
theorem declare_same (name : Name) (span : Option Span) :
    C.SameEffect old old' d (fun _ _ => True) (declare env name v span)
      (declare env' name v' span) := by
  obtain ⟨hKnown, rfl⟩ := hScope
  obtain ⟨hHolds, rfl⟩ := of_like hLike
  intro s s' hBetween
  rw [declare_eq, declare_eq, hBetween.scopes.binds_eq hKnown]
  split
  · exact .error rfl hBetween
  · exact .ok trivial (hBetween.write hKnown hHolds name)

include hScope hLike in
theorem assign_same (name : Name) (span : Option Span) :
    C.SameEffect old old' d (fun _ _ => True) (assign env name v span)
      (assign env' name v' span) := by
  obtain ⟨hKnown, rfl⟩ := hScope
  obtain ⟨hHolds, rfl⟩ := of_like hLike
  intro s s' hBetween
  obtain ⟨hAssignee, hTarget⟩ := hBetween.scopes.assignee_eq hKnown name
  rw [assign_eq, assign_eq, hAssignee]
  exact .ok trivial (hBetween.write hTarget hHolds name)

include hScope in
/-- Both closures have the next serial number of their side. -/
theorem makeClosure_same (params : Slice) (body : NodeId) :
    C.SameEffect old old' d (Value.Like C.SameClosure) (makeClosure params body env)
      (makeClosure params body env') := by
  obtain ⟨hKnown, rfl⟩ := hScope
  intro s s' hBetween
  obtain ⟨made, hHere, hThere⟩ := hBetween.closures
  have hValid := C.valid_fresh made params body hKnown
  have hNext : ∃ made, s.closures + 1 = C.here + made ∧ s'.closures + 1 = C.there + made :=
    ⟨made + 1, congrArg (· + 1) hHere, congrArg (· + 1) hThere⟩
  refine .ok (.closure ⟨hHere ▸ hValid, ?_⟩)
    ⟨hBetween.scopes, hBetween.printed, hNext, hBetween.depth⟩
  simp only [closure, Closure.renumber, Closure.relabel, hHere, hThere, C.serial_fresh]

include hClosure in
theorem permit_same (supplied : Nat) (span : Span) :
    C.SameEffect old old' d (fun names names' => names = names' ∧ d < cfg.maxDepth)
      (permit cfg c supplied span) (permit cfg c' supplied span) := by
  obtain ⟨-, rfl⟩ := hClosure
  intro s s' hBetween
  obtain ⟨hDepth, hDepth'⟩ := hBetween.depth
  have hParams : (C.closure c).params = c.params := rfl
  rw [permit_eq, permit_eq, hDepth, hDepth', hParams]
  by_cases hLimit : cfg.maxDepth ≤ d
  · rw [if_pos hLimit, if_pos hLimit]
    exact .error rfl hBetween
  · rw [if_neg hLimit, if_neg hLimit]
    cases cfg.table.params? c.params with
    | none => exact .error rfl hBetween
    | some params =>
      by_cases hArity : cfg.policy = .strict ∧ supplied < params.length
      · simp only [if_pos hArity]
        exact .error rfl hBetween
      · simp only [if_neg hArity]
        exact .ok ⟨rfl, Nat.lt_of_not_le hLimit⟩ hBetween

include hClosure in
theorem enclose_same : C.SameEffect old old' d C.SameScope (onScopes (·.enclose c.scope))
    (onScopes (·.enclose c'.scope)) := by
  obtain ⟨hValid, rfl⟩ := hClosure
  intro s s' hBetween
  obtain ⟨hFresh, hNumber⟩ := hBetween.scopes.fresh
  exact .ok ⟨hFresh, hNumber.symm⟩ (hBetween.enclose (C.scopes.known_of_valid hValid))

/-- A body is entered and left on both sides, so the depth is as before. -/
theorem entered_same {P : α → β → Prop} {x : Effect α} {y : Effect β}
    (h : C.SameEffect old old' (d + 1) P x y) :
    C.SameEffect old old' d P (entered x) (entered y) := by
  intro s s' hBetween
  have hBody := h _ _ (hBetween.changeDepth (· + 1))
  unfold entered
  generalize x { s with depth := s.depth + 1 } = r at hBody
  generalize y { s' with depth := s'.depth + 1 } = r' at hBody
  cases hBody with
  | ok hValue hDeep => exact .ok hValue (hDeep.changeDepth (· - 1))
  | error hCause hDeep => exact .error hCause (hDeep.changeDepth (· - 1))

end Effects

/-- Two evaluations in corresponding states. -/
def coupling (C : Correspondence) (cfg : Setting) (old old' : List Value) : Coupling cfg cfg where
  Rel d := C.SameEffect old old' d
  SameScope := C.SameScope
  SameClosure := C.SameClosure
  Node _ := True
  Fuel n n' := n' = n
  Deeper d := d < cfg.maxDepth
  sameTable := .refl cfg
  operand _ _ _ := trivial
  body := by
    rintro c _ ⟨-, rfl⟩
    exact ⟨rfl, trivial⟩
  pure := .pure
  bind := .bind
  fail _ := .throw rfl
  dangling _ _ := .throw rfl
  spent := by
    rintro d α β n P y rfl hSpent
    rw [hSpent rfl]
    exact .throw rfl
  burn := by
    rintro n _ rfl
    exact ⟨n, rfl, rfl⟩
  resolve name hScope := resolve_same hScope name
  print := print_same
  declare name span hScope hLike := declare_same hScope hLike name span
  assign name span hScope hLike := assign_same hScope hLike name span
  makeClosure _ _ hScope := makeClosure_same hScope _ _
  permit supplied span hClosure := permit_same hClosure supplied span
  enclose := enclose_same
  entered := entered_same

/-! ## Evaluations -/

/-- Effects that end with the same value, or stop for the same cause, in corresponding states. -/
abbrev Alike (C : Correspondence) (old old' : List Value) (d : Nat) :
    EStateM.Result Stop State Value → EStateM.Result Stop State Value → Prop :=
  Agree (C.Between old old' d) (· = ·) (Value.Like C.SameClosure)

/-- The evaluation of a node does the same in corresponding states. -/
theorem Between.eval_alike (hBetween : C.Between old old' d s s') (hKnown : C.scopes.Known env)
    (cfg : Setting) (fuel : Nat) (id : NodeId) :
    C.Alike old old' d (eval cfg fuel id env s) (eval cfg fuel id (C.scopes.number env) s') :=
  (C.coupling cfg old old').eval_rel rfl trivial ⟨hKnown, rfl⟩ s s' hBetween

/-- The application of a value by the host does the same in corresponding states. -/
theorem Between.call_alike {callee : Value} {args : List Value}
    (hBetween : C.Between old old' d s s') (hCallee : C.Holds callee)
    (hArgs : ∀ v ∈ args, C.Holds v) (cfg : Setting) (fuel : Nat) :
    C.Alike old old' d (call cfg fuel callee args s)
      (call cfg fuel (C.value callee) (args.map C.value) s') := by
  cases callee with
  | closure c =>
    have hClosure : C.SameClosure c (C.closure c) := ⟨hCallee c rfl, rfl⟩
    have hValues : List.Forall₂ (Value.Like C.SameClosure) args (args.map C.value) := by
      refine List.forall₂_map_right_iff.mpr (List.forall₂_same.mpr fun v hMem => ?_)
      exact like_value (hArgs v hMem)
    refine (C.coupling cfg old old').applyWith_rel hClosure hValues ?_ .origin s s' hBetween
    intro c c' inner inner' _ hBody hInner
    exact (C.coupling cfg old old').eval_rel rfl trivial hInner
  | _ => exact .error rfl hBetween

/-! ## The same scopes -/

theorem shift_inj {old new a b : Nat} (ha : a < old → a < new) (hb : b < old → b < new)
    (h : shift old new a = shift old new b) : a = b := by
  have hNotLess := mt (shift_lt_iff ha hb).mpr (Nat.not_lt.mpr (Nat.le_of_eq h.symm))
  have hNotMore := mt (shift_lt_iff hb ha).mpr (Nat.not_lt.mpr (Nat.le_of_eq h))
  exact Nat.le_antisymm (Nat.le_of_not_lt hNotMore) (Nat.le_of_not_lt hNotLess)

theorem shift_of_lt {old new i : Nat} (h : i < old) : shift old new i = i := if_pos h

/-- The scopes have no other numbers. Here and elsewhere, different numbers of closures were made,
so those that are made from now on have other serial numbers. -/
def ofClosures (size made made' : Nat) : Correspondence where
  scopes :=
    { Known := fun _ => True
      Valid := fun c => c.serial < made → c.serial < made'
      number := id
      here := size
      there := size
      known_of_valid := fun _ => trivial
      known_fresh := fun _ => trivial
      number_fresh := fun _ => rfl
      lt_iff := fun _ _ => .rfl }
  serial := shift made made'
  here := made
  there := made'
  serial_fresh := shift_add made made'
  valid_fresh i _ _ _ _ hOld := absurd hOld (Nat.not_lt.mpr (Nat.le_add_right made i))
  serial_inj := shift_inj

/-- A closure that was made before is the same elsewhere. -/
theorem closure_ofClosures {size made made' : Nat} (h : c.serial < made) :
    (ofClosures size made made').closure c = c :=
  congrArg (fun serial => { c with serial }) (shift_of_lt h)

theorem value_ofClosures {size made made' : Nat} (h : ∀ c, v = .closure c → c.serial < made) :
    (ofClosures size made made').value v = v := by
  cases v with
  | closure c => exact congrArg Value.closure (closure_ofClosures (h c rfl))
  | _ => rfl

/-- Scopes are the same as themselves, if the closures that are bound keep their serial numbers. -/
theorem ofClosures_same {g : Scopes} {made made' : Nat}
    (hOld : ∀ id c, g.Stores id c → c.serial < made → c.serial < made')
    (hSame : ∀ id c, g.Stores id c → shift made made' c.serial = c.serial) :
    (ofClosures g.all.size made made').Same g g := by
  refine ⟨g, ⟨⟨0, rfl, rfl⟩, fun env _ => ?_, fun _ _ _ _ => trivial, fun id c _ => hOld id c⟩,
    (Scopes.relabel_eq_self hSame).symm⟩
  change g.scope? env = (g.scope? env).map (·.renumber id)
  cases g.scope? env with
  | none => rfl
  | some scope => exact congrArg some (Scope.renumber_eq id (fun _ _ => rfl) fun _ _ _ => rfl).symm

theorem shift_self (n i : Nat) : shift n n i = i := by
  unfold shift
  split <;> omega

/-- A state corresponds to itself. -/
theorem Between.self (s : State) :
    (ofClosures s.scopes.all.size s.closures s.closures).Between s.printed.toList s.printed.toList
      s.depth s s where
  scopes := ofClosures_same (fun _ _ _ => id) fun _ c _ => shift_self s.closures c.serial
  printed := ⟨[], (List.append_nil _).symm, (List.append_nil _).symm⟩
  closures := ⟨0, rfl, rfl⟩
  depth := ⟨rfl, rfl⟩

end Correspondence

end FeatherScript
