import FeatherScript.Proofs.Eval.Assignment

/-!
# Reading after writing

Scopes are shared: what is written from one scope is read from all scopes whose chains pass the
written one before any other that binds the name. A name is updated where it belongs, or else in the
root, and created in the scope at hand, unless that one binds it. Either way one binding is written,
and a name reads differently only from where the written scope is now the first to bind it.

* `Scopes.RootOf`, `Scopes.Updates`: the scope that an update writes to.
* `Scopes.ReadsWritten`: what names read as after a write.
* `Writes.readsWritten`: any write of one binding is read in this way.
* `bindings_written_and_read`: the laws of updating and creating.
-/

namespace FeatherScript.Scopes

/-- The root that the parents of a scope lead to. -/
inductive RootOf (g : Scopes) : ScopeId → ScopeId → Prop
  | self {id} (hOld : id < g.all.size) (hRoot : g.parent? id = none) : RootOf g id id
  | outer {id outer root} (hParent : g.parent? id = some outer) (h : RootOf g outer root) :
      RootOf g id root

/-- An update from the scope `env` writes the first binding of the name outward, or a new one in the
root where there is none. -/
inductive Updates (g : Scopes) (env : ScopeId) (name : Name) : ScopeId → Prop
  | bound {owner} (hFinds : g.Finds name env owner) : Updates g env name owner
  | unbound {root} (hFree : ∀ owner, ¬ g.Finds name env owner) (hRoot : g.RootOf env root) :
      Updates g env name root

/-- After a write to a scope, the name has the value where that scope is now the first to bind it.
Elsewhere, and for other names, nothing reads differently. -/
structure ReadsWritten (g g' : Scopes) (target : ScopeId) (name : Name) (value : Value) :
    Prop where
  written : ∀ env, g'.Finds name env target → g'.resolve env name = value
  others : ∀ env n, ¬ (n = name ∧ g'.Finds name env target) → g'.resolve env n = g.resolve env n

variable {g g' : Scopes} {id env root root' target : ScopeId} {name n : Name} {value : Value}

/-! ## Where updates write -/

theorem RootOf.lt_size (h : g.RootOf id root) : root < g.all.size := by
  induction h with
  | self hOld => exact hOld
  | outer _ _ ih => exact ih

theorem RootOf.unique (h : g.RootOf id root) (h' : g.RootOf id root') : root = root' := by
  induction h with
  | self _ hRoot =>
    cases h' with
    | self => rfl
    | outer hParent => cases hRoot.symm.trans hParent
  | outer hParent _ ih =>
    cases h' with
    | self _ hRoot => cases hRoot.symm.trans hParent
    | outer hParent' h' =>
      cases hParent.symm.trans hParent'
      exact ih h'

/-- Where parents are older, a scope has a root. -/
theorem Ordered.rootOf (h : g.Ordered) (hOld : id < g.all.size) : g.RootOf id (g.root id) := by
  induction id using Nat.strongRecOn with
  | ind id ih =>
    rw [root, chain_of_lt hOld]
    cases hParent : g.parent? id with
    | none => exact .self hOld hParent
    | some outer =>
      have hLess := h id outer hParent
      have hOuter : outer < g.all.size := Nat.lt_trans hLess hOld
      refine .outer hParent ?_
      have hRoot := ih outer hLess hOuter
      rw [root, chain_of_lt hOuter, List.getLastD_cons] at hRoot
      rwa [Option.filter_some, if_pos (decide_eq_true hLess), Option.elim_some,
        chain_of_lt hOuter, List.getLastD_cons, List.getLastD_cons]

/-- An update writes to one scope only. -/
theorem Ordered.updates_iff (h : g.Ordered) (hEnv : env < g.all.size) :
    g.Updates env name target ↔ target = g.updated env name := by
  unfold updated
  cases hOwner : g.owner? env name with
  | some owner =>
    have hFinds := h.finds_iff.mpr hOwner
    constructor
    · rintro (hFound | ⟨hFree, -⟩)
      · exact Option.some.inj ((h.finds_iff.mp hFound).symm.trans hOwner)
      · exact absurd hFinds (hFree owner)
    · rintro rfl
      exact .bound hFinds
  | none =>
    have hFree : ∀ owner, ¬ g.Finds name env owner := by
      intro owner hFinds
      cases hOwner.symm.trans (h.finds_iff.mp hFinds)
    constructor
    · rintro (hFound | ⟨-, hRoot⟩)
      · exact absurd hFound (hFree target)
      · exact hRoot.unique (h.rootOf hEnv)
    · rintro rfl
      exact .unbound hFree (h.rootOf hEnv)

theorem Updates.lt_size (h : g.Updates env name target) (hOrdered : g.Ordered) :
    target < g.all.size := by
  cases h with
  | bound hFinds =>
    obtain ⟨v, hLookup⟩ := lookup?_of_owner? (hOrdered.finds_iff.mp hFinds)
    exact lt_size_of_lookup? hLookup
  | unbound _ hRoot => exact hRoot.lt_size

/-! ## What is read after a write -/

namespace Writes

variable (h : g.Writes g' target name value)

include h

theorem ordered (hOrdered : g.Ordered) : g'.Ordered :=
  fun id outer hParent => hOrdered id outer ((h.parents id).symm.trans hParent)

/-- A name still belongs to the same scope, unless it now belongs to the written one. -/
theorem owner?_eq (hOrdered : g.Ordered)
    (hOther : n = name → g'.owner? env n ≠ some target) :
    g'.owner? env n = g.owner? env n := by
  -- By induction on the scope, along its parents: up to the written scope both sides bind alike.
  induction env using Nat.strongRecOn with
  | ind env ih =>
    have hBinds : g'.binds env n = g.binds env n := by
      rw [binds_eq_isSome, binds_eq_isSome, h.others env n]
      by_contra hSame
      obtain ⟨rfl, rfl⟩ := not_or.mp hSame |>.imp not_not.mp not_not.mp
      refine hOther rfl (owner?_of_binds ?_)
      rw [binds_eq_isSome, h.written, Option.isSome_some]
    rw [(h.ordered hOrdered).owner?_eq] at hOther ⊢
    rw [hOrdered.owner?_eq]
    rw [hBinds, h.parents] at hOther ⊢
    split
    · rfl
    · next hFree =>
      rw [if_neg hFree] at hOther
      cases hParent : g.parent? env with
      | none => rfl
      | some outer =>
        rw [hParent] at hOther
        exact ih outer (hOrdered env outer hParent) hOther

/-- What is written in one binding is read from where it is the first one. -/
theorem readsWritten (hOrdered : g.Ordered) : g.ReadsWritten g' target name value := by
  have hFinds : ∀ env, g'.Finds name env target ↔ g'.owner? env name = some target :=
    fun _ => (h.ordered hOrdered).finds_iff
  refine ⟨fun env hFirst => resolve_of_owner? ((hFinds env).mp hFirst) h.written,
    fun env n hOther => ?_⟩
  have hOwner : n = name → g'.owner? env n ≠ some target := by
    rintro rfl hSame
    exact hOther ⟨rfl, (hFinds env).mpr hSame⟩
  have hSame := h.owner?_eq hOrdered hOwner
  rw [resolve_eq, resolve_eq, hSame]
  cases hFound : g.owner? env n with
  | none => rfl
  | some owner =>
    rw [Option.bind_some, Option.bind_some, h.others owner n]
    by_contra hBoth
    obtain ⟨rfl, rfl⟩ := not_or.mp hBoth |>.imp not_not.mp not_not.mp
    exact hOwner rfl (hSame.trans hFound)

end Writes

/-! ## Updating and creating -/

/-- A name is updated in the first scope outward that binds it, or else in the root; it is created
in the scope itself, which fails exactly where that scope binds it and then changes nothing. Either
way one binding is written and the others are as they were; and from every scope, the name reads as
the written value where the written scope is now the first to bind it, and all else as before. -/
theorem bindings_written_and_read (g : Scopes) (env : ScopeId) (name : Name) (value : Value)
    (hOrdered : g.Ordered) (hEnv : env < g.all.size) :
    (∃ target, (∀ other, g.Updates env name other ↔ other = target) ∧
      g.Writes (g.update env name value) target name value ∧
      g.ReadsWritten (g.update env name value) target name value) ∧
    (g.create? env name value = none ↔ g.binds env name = true) ∧
    (∀ g', g.create? env name value = some g' →
      g.Writes g' env name value ∧ g.ReadsWritten g' env name value) ∧
    ∀ (s : Eval.State) (span : Option Span), s.scopes = g →
      Eval.Effect.declare env name value span s = match g.create? env name value with
        | some g' => .ok () { s with scopes := g' }
        | none => .error (.failed ⟨.alreadyDeclared name, span⟩) s := by
  refine ⟨⟨g.updated env name, fun other => hOrdered.updates_iff hEnv, ?_⟩, ?_,
    fun g' hCreate => ?_, ?_⟩
  · have hUpdates : g.Updates env name (g.updated env name) :=
      (hOrdered.updates_iff hEnv).mpr rfl
    have hWrites := writes_write (hUpdates.lt_size hOrdered) name value
    exact ⟨hWrites, hWrites.readsWritten hOrdered⟩
  · rw [create?, ite_eq_left_iff]
    simp
  · obtain ⟨-, hWritten⟩ := Option.ite_none_left_eq_some.mp hCreate
    cases hWritten
    have hWrites := writes_write hEnv name value
    exact ⟨hWrites, hWrites.readsWritten hOrdered⟩
  · rintro s span rfl
    rw [Eval.Effect.declare_eq, create?]
    split <;> rfl

/-- Two roots, of which the first binds `x`. Inside it lie a scope without bindings, one in that
where `x` is null, and another one beside them. -/
def family : Scopes :=
  ⟨#[⟨[(⟨1⟩, .int 5)], none⟩, ⟨[], some 0⟩, ⟨[(⟨1⟩, .null)], some 1⟩, ⟨[], some 0⟩, ⟨[], none⟩]⟩

theorem family_ordered : family.Ordered := by
  intro id outer hParent
  match id with
  | 0 | 4 => cases hParent
  | 1 | 2 | 3 =>
    cases hParent
    decide
  | _ + 5 => cases hParent

/-- From the scope without bindings the root is updated, which its other child sees and the inner
scope does not. A binding created there instead is seen by neither of them, and none can be created
in the inner scope. -/
theorem family_written_and_read :
    1 < family.all.size ∧ family.Ordered ∧
    (family.Writes (family.update 1 ⟨1⟩ (.int 7)) 0 ⟨1⟩ (.int 7) ∧
      (family.update 1 ⟨1⟩ (.int 7)).resolve 3 ⟨1⟩ = .int 7 ∧
      (family.update 1 ⟨1⟩ (.int 7)).resolve 2 ⟨1⟩ = family.resolve 2 ⟨1⟩) ∧
    (∃ g', family.create? 1 ⟨1⟩ (.int 7) = some g' ∧ g'.resolve 1 ⟨1⟩ = .int 7 ∧
      g'.resolve 3 ⟨1⟩ = family.resolve 3 ⟨1⟩) ∧
    family.create? 2 ⟨1⟩ (.int 7) = none := by
  have hOrdered := family_ordered
  obtain ⟨⟨target, hTarget, hWrites, hReads⟩, -, hCreates, -⟩ :=
    bindings_written_and_read family 1 ⟨1⟩ (.int 7) hOrdered (by decide)
  obtain ⟨-, hFails, -⟩ :=
    bindings_written_and_read family 2 ⟨1⟩ (.int 7) hOrdered (by decide)
  have hRoot : family.Updates 1 ⟨1⟩ 0 := .bound (.further rfl rfl (.here rfl))
  obtain rfl := (hTarget 0).mp hRoot
  refine ⟨by decide, hOrdered, ⟨hWrites, ?_, ?_⟩, ?_, hFails.mpr rfl⟩
  · have hParent : (family.update 1 ⟨1⟩ (.int 7)).parent? 3 = some 0 := by decide +kernel
    exact hReads.written 3 (.further (by decide +kernel) hParent (.here (by decide +kernel)))
  · refine hReads.others 2 ⟨1⟩ ?_
    rintro ⟨-, hFinds⟩
    cases hFinds with
    | further hFree =>
      have hBinds : (family.update 1 ⟨1⟩ (.int 7)).binds 2 ⟨1⟩ = true := by decide +kernel
      cases hBinds.symm.trans hFree
  · obtain ⟨-, hReads'⟩ := hCreates _ rfl
    refine ⟨_, rfl, hReads'.written 1 (.here rfl), hReads'.others 3 ⟨1⟩ ?_⟩
    rintro ⟨-, hFinds⟩
    cases hFinds with
    | further _ hParent hOuter =>
      cases hParent
      cases hOuter with
      | further hFree => cases hFree

end FeatherScript.Scopes
