import FeatherScript.Proofs.Eval.Coupling
import FeatherScript.Proofs.Scope.Rooted

/-!
# What happens in a run

A run is a list of events, each of which changes the state a little: a value is printed, a closure
is made, a scope is made, a name is bound or its value replaced, a body is entered or left. What one
event leaves as it was, a run leaves as it was. So scopes keep their parents and their names, the
scopes made in a run are those of the events that make one, and no name is bound twice in one scope.

* `Happens`: an event in a state, and the state after it.
* `Run`: events one after the other.
* `Happens.extension`, `Happens.closed`, `Happens.binds_iff`: what an event does to the scopes.
* `Grows`, `Run.grows`: what a run does to them.
-/

namespace FeatherScript.Eval

open Effect

/-- A change of the state. -/
inductive Event
  | printed (value : Value)
  | made (function : Closure)
  /-- A closure passed the checks of an application, and a scope was made for it. -/
  | opened (function : Closure) (supplied : Nat)
  /-- A scope was made inside another one, from outside of any program. -/
  | enclosed (outer : ScopeId)
  /-- A root was made, from outside of any program. -/
  | rooted
  | bound (scope : ScopeId) (name : Name) (value : Value)
  | replaced (scope : ScopeId) (name : Name) (value : Value)
  | entered
  | left
deriving DecidableEq

namespace Event

/-- The scope around the one that an event makes, if it makes one. -/
def outer? : Event → Option ScopeId
  | opened c _ => some c.scope
  | enclosed outer => some outer
  | _ => none

/-- What is around the scope that an event makes, if it makes one: another scope, or nothing. -/
def around? : Event → Option (Option ScopeId)
  | rooted => some none
  | e => e.outer?.map some

/-- The scope and the name that an event binds, if it binds one. -/
def binding? : Event → Option (ScopeId × Name)
  | bound scope name _ => some (scope, name)
  | _ => none

/-- The event of writing a value to a name in a scope. -/
def written (g : Scopes) (scope : ScopeId) (name : Name) (value : Value) : Event :=
  if g.binds scope name then .replaced scope name value else .bound scope name value

end Event

/-! ## One event -/

/-- Who acts: a program, or what it is embedded in. -/
inductive Actor
  | program
  | host

/-- An event happens in a state, and leads to another one. Only from outside of a program is a scope
made without an application, or a root. -/
inductive Happens (cfg : Setting) (actor : Actor) : State → Event → State → Prop
  | printed {s value} (hKnown : s.scopes.Knows value) :
      Happens cfg actor s (.printed value) { s with printed := s.printed.push value }
  | made {s params body env} (hEnv : env < s.scopes.all.size) :
      Happens cfg actor s (.made ⟨s.closures, params, body, env⟩)
        { s with closures := s.closures + 1 }
  | opened {s c supplied span params} (hChecks : permit cfg c supplied span s = .ok params s)
      (hScope : c.scope < s.scopes.all.size) :
      Happens cfg actor s (.opened c supplied) { s with scopes := (s.scopes.enclose c.scope).2 }
  | enclosed {s outer} (hHost : actor = .host) (hOuter : outer < s.scopes.all.size) :
      Happens cfg actor s (.enclosed outer) { s with scopes := (s.scopes.enclose outer).2 }
  | rooted {s} (hHost : actor = .host) :
      Happens cfg actor s .rooted { s with scopes := s.scopes.addRoot.2 }
  | bound {s scope name value} (hScope : scope < s.scopes.all.size)
      (hFree : s.scopes.binds scope name = false) (hKnown : s.scopes.Knows value) :
      Happens cfg actor s (.bound scope name value)
        { s with scopes := s.scopes.write scope name value }
  | replaced {s scope name value} (hBinds : s.scopes.binds scope name = true)
      (hKnown : s.scopes.Knows value) :
      Happens cfg actor s (.replaced scope name value)
        { s with scopes := s.scopes.write scope name value }
  | entered {s} : Happens cfg actor s .entered { s with depth := s.depth + 1 }
  | left {s} : Happens cfg actor s .left { s with depth := s.depth - 1 }

variable {cfg : Setting} {actor : Actor} {s t u : State} {e : Event} {es fs : List Event}
  {id scope outer : ScopeId} {around : Option ScopeId} {name : Name} {value : Value}

/-- Writing a known value to an existing scope is an event. -/
theorem Happens.written (name : Name) (hScope : scope < s.scopes.all.size)
    (hKnown : s.scopes.Knows value) :
    Happens cfg actor s (.written s.scopes scope name value)
      { s with scopes := s.scopes.write scope name value } := by
  unfold Event.written
  cases hBinds : s.scopes.binds scope name with
  | true => exact .replaced hBinds hKnown
  | false => exact .bound hScope hBinds hKnown

namespace Happens

theorem byHost (h : Happens cfg actor s e t) : Happens cfg .host s e t := by
  cases h with
  | printed hKnown => exact .printed hKnown
  | made hEnv => exact .made hEnv
  | opened hChecks hScope => exact .opened hChecks hScope
  | enclosed _ hOuter => exact .enclosed rfl hOuter
  | rooted => exact .rooted rfl
  | bound hScope hFree hKnown => exact .bound hScope hFree hKnown
  | replaced hBinds hKnown => exact .replaced hBinds hKnown
  | entered => exact .entered
  | left => exact .left

/-- No scope loses its parent or a name. -/
theorem extension (h : Happens cfg actor s e t) : s.scopes.Extends t.scopes := by
  cases h with
  | opened | enclosed | rooted => exact Scopes.extends_add
  | bound | replaced => exact Scopes.extends_write
  | _ => exact .refl _

theorem closed (h : Happens cfg actor s e t) (hClosed : s.scopes.Closed) : t.scopes.Closed := by
  cases h with
  | opened _ hScope => exact hClosed.enclose hScope
  | enclosed _ hOuter => exact hClosed.enclose hOuter
  | rooted => exact hClosed.addRoot
  | bound _ _ hKnown => exact hClosed.write hKnown
  | replaced _ hKnown => exact hClosed.write hKnown
  | _ => exact hClosed

theorem size_eq (h : Happens cfg actor s e t) :
    t.scopes.all.size = s.scopes.all.size + e.around?.toList.length := by
  cases h with
  | opened | enclosed | rooted => exact Scopes.size_add
  | bound | replaced => exact Scopes.size_write
  | _ => rfl

/-- A scope that is made comes last, and has the parent of its event. -/
theorem parent?_eq (h : Happens cfg actor s e t) (hAround : e.around? = some around) :
    t.scopes.parent? s.scopes.all.size = around := by
  have hNew : (s.scopes.add around).2.parent? s.scopes.all.size = around := by
    rw [Scopes.parent?, Scopes.scope?_add, if_pos rfl, Option.bind_some]
  cases h with
  | opened | enclosed | rooted =>
    cases hAround
    exact hNew
  | _ => cases hAround

/-- A name is bound after an event if it was before, or if the event binds it. -/
theorem binds_iff (h : Happens cfg actor s e t) :
    t.scopes.binds id name = true ↔
      s.scopes.binds id name = true ∨ e.binding? = some (id, name) := by
  have hEnclose : ∀ outer, (s.scopes.enclose outer).2.binds id name = s.scopes.binds id name :=
    fun _ => Scopes.binds_enclose
  have hRoot : s.scopes.addRoot.2.binds id name = s.scopes.binds id name := Scopes.binds_add
  cases h with
  | opened | enclosed => simp [Event.binding?, hEnclose]
  | rooted => simp [Event.binding?, hRoot]
  | bound hScope => simp [Event.binding?, Scopes.binds_write_iff hScope]
  | replaced hBinds =>
    rw [Scopes.binds_write_iff (Scopes.lt_size_of_binds hBinds)]
    constructor
    · rintro (hBefore | ⟨rfl, rfl⟩)
      · exact .inl hBefore
      · exact .inl hBinds
    · rintro (hBefore | hNone)
      · exact .inl hBefore
      · cases hNone
  | _ => simp [Event.binding?]

/-- Only a name that is not bound can be bound. -/
theorem binds_eq_false (h : Happens cfg actor s e t) (hBinding : e.binding? = some (id, name)) :
    s.scopes.binds id name = false := by
  cases h with
  | bound _ hFree =>
    cases hBinding
    exact hFree
  | _ => cases hBinding

/-- The state after an event is determined. -/
theorem unique {t' : State} (h : Happens cfg actor s e t) (h' : Happens cfg actor s e t') :
    t = t' := by
  cases h <;> cases h' <;> rfl

end Happens

/-! ## Runs -/

/-- Events happen one after the other. -/
inductive Run (cfg : Setting) (actor : Actor) : State → List Event → State → Prop
  | nil {s : State} : Run cfg actor s [] s
  | cons {s t u : State} {e : Event} {es : List Event} (hFirst : Happens cfg actor s e t)
      (h : Run cfg actor t es u) : Run cfg actor s (e :: es) u

namespace Run

theorem single (h : Happens cfg actor s e t) : Run cfg actor s [e] t := .cons h .nil

/-- What a program may do, its host may do. -/
theorem byHost (h : Run cfg actor s es t) : Run cfg .host s es t := by
  induction h with
  | nil => exact .nil
  | cons hFirst _ ih => exact .cons hFirst.byHost ih

theorem append (h : Run cfg actor s es t) (h' : Run cfg actor t fs u) :
    Run cfg actor s (es ++ fs) u := by
  induction h with
  | nil => exact h'
  | cons hFirst _ ih => exact .cons hFirst (ih h')

/-- The state between two parts of a run. -/
theorem exists_of_append (h : Run cfg actor s (es ++ fs) u) :
    ∃ t, Run cfg actor s es t ∧ Run cfg actor t fs u := by
  induction es generalizing s with
  | nil => exact ⟨s, .nil, h⟩
  | cons e es ih =>
    cases h with
    | cons hFirst h =>
      obtain ⟨t, hBefore, hAfter⟩ := ih h
      exact ⟨t, .cons hFirst hBefore, hAfter⟩

/-- The state after a run is determined. -/
theorem unique (h : Run cfg actor s es t) (h' : Run cfg actor s es u) : t = u := by
  induction h with
  | nil =>
    cases h'
    rfl
  | cons hFirst _ ih =>
    cases h' with
    | cons hOther h' =>
      obtain rfl := hFirst.unique hOther
      exact ih h'

theorem extension (h : Run cfg actor s es t) : s.scopes.Extends t.scopes := by
  induction h with
  | nil => exact .refl _
  | cons hFirst _ ih => exact hFirst.extension.trans ih

theorem closed (h : Run cfg actor s es t) (hClosed : s.scopes.Closed) : t.scopes.Closed := by
  induction h with
  | nil => exact hClosed
  | cons hFirst _ ih => exact ih (hFirst.closed hClosed)

/-- A run makes as many scopes as it has events that make one. -/
theorem size_eq (h : Run cfg actor s es t) :
    t.scopes.all.size = s.scopes.all.size + (es.filterMap Event.around?).length := by
  induction h with
  | nil => rfl
  | @cons s t u e es hFirst _ ih =>
    have hSize := hFirst.size_eq
    cases hAround : e.around? with
    | none =>
      rw [hAround] at hSize
      rw [ih, hSize, List.filterMap_cons_none hAround]
      rfl
    | some around =>
      rw [hAround] at hSize
      rw [ih, hSize, List.filterMap_cons_some hAround, List.length_cons, Option.toList_some,
        List.length_singleton]
      omega

/-- The scopes that a run makes are numbered in the order of their events, and have the parents that
these name. -/
theorem parent?_eq (h : Run cfg actor s es t) {k : Nat}
    (hAround : (es.filterMap Event.around?)[k]? = some around) :
    t.scopes.parent? (s.scopes.all.size + k) = around := by
  induction h generalizing k with
  | nil => cases hAround
  | @cons s t u e es hFirst h ih =>
    have hSize := hFirst.size_eq
    cases hEvent : e.around? with
    | none =>
      rw [List.filterMap_cons_none hEvent] at hAround
      rw [hEvent] at hSize
      have hRest := ih hAround
      rwa [hSize] at hRest
    | some first =>
      rw [List.filterMap_cons_some hEvent] at hAround
      rw [hEvent, Option.toList_some, List.length_singleton] at hSize
      -- The scope of the first event has the number zero of the run, the others move up by one.
      cases k with
      | zero =>
        cases hAround
        rw [Nat.add_zero, h.extension.parents _ (by omega)]
        exact hFirst.parent?_eq hEvent
      | succ k =>
        have hRest := ih hAround
        rwa [hSize, Nat.add_assoc, Nat.add_comm 1 k] at hRest

/-- A name is bound after a run if it was before, or if an event binds it. -/
theorem binds_iff (h : Run cfg actor s es t) :
    t.scopes.binds id name = true ↔
      s.scopes.binds id name = true ∨ (id, name) ∈ es.filterMap Event.binding? := by
  induction h with
  | nil => simp
  | @cons s t u e es hFirst _ ih =>
    rw [ih, hFirst.binds_iff, List.mem_filterMap, List.mem_filterMap]
    simp [or_assoc]

/-- No name is bound that was bound before, or that is bound twice. -/
theorem bindings_fresh (h : Run cfg actor s es t) :
    (es.filterMap Event.binding?).Nodup ∧
      ∀ id name, (id, name) ∈ es.filterMap Event.binding? → s.scopes.binds id name = false := by
  induction h with
  | nil => exact ⟨.nil, nofun⟩
  | @cons s t u e es hFirst _ ih =>
    obtain ⟨hNodup, hFree⟩ := ih
    -- What is free later was free before, for names stay bound.
    have hBefore : ∀ id name, t.scopes.binds id name = false → s.scopes.binds id name = false := by
      intro id name hAfter
      refine Bool.eq_false_iff.mpr fun hBinds => ?_
      rw [hFirst.extension.names id name hBinds] at hAfter
      cases hAfter
    cases hBinding : e.binding? with
    | none =>
      rw [List.filterMap_cons_none hBinding]
      exact ⟨hNodup, fun id name hMem => hBefore id name (hFree id name hMem)⟩
    | some pair =>
      obtain ⟨id, name⟩ := pair
      have hNow : t.scopes.binds id name = true := hFirst.binds_iff.mpr (.inr hBinding)
      rw [List.filterMap_cons_some hBinding]
      refine ⟨List.nodup_cons.mpr ⟨fun hMem => ?_, hNodup⟩, fun id' name' hMem => ?_⟩
      · rw [hFree id name hMem] at hNow
        cases hNow
      · rcases List.mem_cons.mp hMem with hSame | hMem
        · cases hSame
          exact hFirst.binds_eq_false hBinding
        · exact hBefore id' name' (hFree id' name' hMem)

/-- A program makes no scope but by an application. -/
theorem enclosed_not_mem (h : Run cfg .program s es t) : .enclosed outer ∉ es := by
  induction h with
  | nil => exact List.not_mem_nil
  | cons hFirst _ ih =>
    refine List.not_mem_cons_of_ne_of_not_mem ?_ ih
    rintro rfl
    cases hFirst with
    | enclosed hHost => cases hHost

theorem rooted_not_mem (h : Run cfg .program s es t) : .rooted ∉ es := by
  induction h with
  | nil => exact List.not_mem_nil
  | cons hFirst _ ih =>
    refine List.not_mem_cons_of_ne_of_not_mem ?_ ih
    rintro rfl
    cases hFirst with
    | rooted hHost => cases hHost

end Run

/-! ## From one state to a later one -/

/-- The scopes of a state, and what has become of them after some events.

Chains lead to roots and do not change, for scopes keep their parents. The scopes that were made are
those of the events that make one, in their order, and have the parents that these name, or are
roots. Names stay bound, so that declaring them in the same scope fails. -/
structure Grows (s : State) (es : List Event) (t : State) : Prop where
  chains : ∀ id < s.scopes.all.size, s.scopes.LeadsToRoot id (s.scopes.chain id)
  parents : ∀ id < s.scopes.all.size, t.scopes.parent? id = s.scopes.parent? id
  size : t.scopes.all.size = s.scopes.all.size + (es.filterMap Event.around?).length
  made : ∀ k around, (es.filterMap Event.around?)[k]? = some around →
    t.scopes.parent? (s.scopes.all.size + k) = around
  names : ∀ id name, s.scopes.binds id name = true → t.scopes.binds id name = true
  noneTwice : ∀ id name, s.scopes.binds id name = true → ∀ value,
    (id, name) ∉ es.filterMap Event.binding? ∧ t.scopes.create? id name value = none ∧
      ∀ span, declare id name value span t = .error (.failed ⟨.alreadyDeclared name, span⟩) t

theorem Run.grows (h : Run cfg actor s es t) (hClosed : s.scopes.Closed) : Grows s es t where
  chains _ hOld := hClosed.leadsToRoot hOld
  parents := h.extension.parents
  size := h.size_eq
  made _ _ hAround := h.parent?_eq hAround
  names := h.extension.names
  noneTwice id name hBinds value := by
    have hStill := h.extension.names id name hBinds
    refine ⟨fun hMem => ?_, ?_, fun span => ?_⟩
    · rw [h.bindings_fresh.2 id name hMem] at hBinds
      cases hBinds
    · rw [Scopes.create?, if_pos hStill]
    · rw [declare_eq, if_pos hStill]

end FeatherScript.Eval
