import FeatherScript.Proofs.Eval.Invariant
import FeatherScript.Proofs.Grammar.Planting
import FeatherScript.Proofs.Scope.Extension

/-!
# Scopes follow the text of a program

Wherever a node is evaluated, the chain of its scope mirrors the functions that the node stands
inside: from the inside out, each scope on it was made by applying a closure of the function at that
place and binds the parameters of that function, and the last one is the root. It does not matter
which calls are active, or how a closure came to be where it is called.

* `ClosureOf`, `Opened`: closures of a function, and scopes made by applying them.
* `Mirrors`: the chain of a scope mirrors some functions.
* `lexicalScopes`: the invariant, which speaks of every closure that is bound anywhere.
* `chain_mirrors_functions`: the theorem.
-/

namespace FeatherScript.Eval

open Effect

variable {cfg : Setting} {start m m' : Moment} {c : Closure} {s t : State} {env : ScopeId}
  {f root : NodeId} {fs : List NodeId} {g g' : Scopes} {name : Name} {names : List Name} {v : Value}

/-! ## Closures and their scopes -/

/-- A closure is one that a run has made by evaluating a function. -/
def ClosureOf (cfg : Setting) (start : Moment) (f : NodeId) (c : Closure) : Prop :=
  ∃ m t, Visits cfg start m ∧ m.node = f ∧ Makes cfg m c t

/-- A scope is one that a run has made by applying a closure of a function. -/
def Opened (cfg : Setting) (start : Moment) (env : ScopeId) (f : NodeId) : Prop :=
  ∃ m c s m', ClosureOf cfg start f c ∧ Visits cfg start m ∧ Applies cfg m c s m' ∧ m'.env = env

/-- A scope itself binds all parameters of a function. -/
def BindsParams (t : NodeTable) (g : Scopes) (env : ScopeId) (f : NodeId) : Prop :=
  ∃ params body span names, t.node? f = some ⟨.function params body, span⟩ ∧
    t.params? params = some names ∧ ∀ name ∈ names, g.binds env name = true

/-- The chain of a scope ends with the root, and each scope before it belongs to the function at the
same place of a list. -/
structure Mirrors (cfg : Setting) (start : Moment) (g : Scopes) (env : ScopeId)
    (fs : List NodeId) : Prop where
  exists_scope : env < g.all.size
  chain : ∃ es, g.chain env = es ++ [Scopes.global] ∧
    List.Forall₂ (fun e f => Opened cfg start e f ∧ BindsParams cfg.table g e f) es fs

theorem ClosureOf.node? (h : ClosureOf cfg start f c) :
    ∃ span, cfg.table.node? f = some ⟨.function c.params c.body, span⟩ := by
  obtain ⟨m, t, -, rfl, hMakes⟩ := h
  cases hMakes with
  | function hNode => exact ⟨_, hNode⟩

theorem BindsParams.extend {t : NodeTable} (hExtends : g.Extends g') (h : BindsParams t g env f) :
    BindsParams t g' env f := by
  obtain ⟨params, body, span, names, hNode, hParams, hBinds⟩ := h
  exact ⟨params, body, span, names, hNode, hParams,
    fun name hMem => hExtends.names env name (hBinds name hMem)⟩

theorem Mirrors.extend (hExtends : g.Extends g') (h : Mirrors cfg start g env fs) :
    Mirrors cfg start g' env fs := by
  obtain ⟨hScope, es, hChain, hScopes⟩ := h
  refine ⟨Nat.lt_of_lt_of_le hScope hExtends.size, es, ?_, ?_⟩
  · rw [hExtends.chain_eq hScope, hChain]
  · exact hScopes.imp fun _ _ hScope => ⟨hScope.1, hScope.2.extend hExtends⟩

/-! ## Entering a body -/

/-- Once bound, the parameters are names of the scope they were bound in. -/
theorem bindParams_binds {span : Option Span} {args : List Value}
    (hEnv : env < s.scopes.all.size) (h : bindParams env span names args s = .ok () t) :
    s.scopes.Extends t.scopes ∧ ∀ name ∈ names, t.scopes.binds env name = true := by
  induction names generalizing s args with
  | nil =>
    cases h
    exact ⟨.refl _, nofun⟩
  | cons name names ih =>
    obtain ⟨⟨⟩, u, hDeclare, hRest⟩ := exists_of_bind_ok h
    have hState := state_of_declare hDeclare
    have hSize : u.scopes.all.size = s.scopes.all.size := by
      rw [hState]
      exact Scopes.size_write
    have hName : u.scopes.binds env name = true := by
      rw [hState]
      exact Scopes.binds_write_self hEnv
    have hExtends : s.scopes.Extends u.scopes := by
      rw [hState]
      exact Scopes.extends_write
    obtain ⟨hMore, hNames⟩ := ih (hSize ▸ hEnv) hRest
    refine ⟨hExtends.trans hMore, fun n hMem => ?_⟩
    rcases List.mem_cons.mp hMem with rfl | hMem
    · exact hMore.names env n hName
    · exact hNames n hMem

/-- Where a body starts, its scope stands inside that of the closure and binds the parameters. -/
theorem Applies.scopes (h : Applies cfg m c s m') (hScope : c.scope < s.scopes.all.size) :
    m'.node = c.body ∧ s.scopes.Extends m'.state.scopes ∧ m'.env < m'.state.scopes.all.size ∧
      m'.state.scopes.chain m'.env = m'.env :: s.scopes.chain c.scope ∧
      ∃ names, cfg.table.params? c.params = some names ∧
        ∀ name ∈ names, m'.state.scopes.binds m'.env name = true := by
  cases h with
  | call _ _ _ _ hEnters =>
    cases hEnters with
    | body hDepth hParams hArity hBind =>
      have hNew := Scopes.lt_size_enclose s.scopes c.scope
      obtain ⟨hExtends, hNames⟩ := bindParams_binds hNew hBind
      have hChain := hExtends.chain_eq hNew
      rw [Scopes.chain_enclose hScope] at hChain
      have hEnv := Nat.lt_of_lt_of_le hNew hExtends.size
      exact ⟨rfl, Scopes.extends_enclose.trans hExtends, hEnv, hChain, _, hParams, hNames⟩

/-- The scope of a body mirrors the function of the closure and those around it. -/
theorem Mirrors.applies (h : Mirrors cfg start s.scopes c.scope fs)
    (hClosure : ClosureOf cfg start f c) (hVisits : Visits cfg start m)
    (hApplies : Applies cfg m c s m') : Mirrors cfg start m'.state.scopes m'.env (f :: fs) := by
  obtain ⟨-, hExtends, hNew, hChain, names, hParams, hNames⟩ := hApplies.scopes h.exists_scope
  obtain ⟨-, es, hOuter, hScopes⟩ := h.extend hExtends
  obtain ⟨span, hNode⟩ := hClosure.node?
  have hOpened : Opened cfg start m'.env f := ⟨m, c, s, m', hClosure, hVisits, hApplies, rfl⟩
  have hBinds : BindsParams cfg.table m'.state.scopes m'.env f :=
    ⟨_, _, _, names, hNode, hParams, hNames⟩
  refine ⟨hNew, m'.env :: es, ?_, .cons ⟨hOpened, hBinds⟩ hScopes⟩
  rw [hChain, ← hExtends.chain_eq h.exists_scope, hOuter, List.cons_append]

/-! ## The invariant -/

/-- A value is no closure, or one of a function, with a scope that mirrors what is around that. -/
def Mirroring (cfg : Setting) (start : Moment) (root : NodeId) (g : Scopes) (v : Value) : Prop :=
  ∀ c, v = .closure c → ∃ f fs, ClosureOf cfg start f c ∧ cfg.table.Within root f fs ∧
    Mirrors cfg start g c.scope fs

/-- Every closure that is bound in a scope has a scope that mirrors the functions around it. -/
def AllMirroring (cfg : Setting) (start : Moment) (root : NodeId) (g : Scopes) : Prop :=
  ∀ id name v, g.lookup? id name = some v → Mirroring cfg start root g v

theorem Mirroring.extend (hExtends : g.Extends g') (h : Mirroring cfg start root g v) :
    Mirroring cfg start root g' v := by
  intro c hValue
  obtain ⟨f, fs, hClosure, hWithin, hMirrors⟩ := h c hValue
  exact ⟨f, fs, hClosure, hWithin, hMirrors.extend hExtends⟩

theorem mirroring_plain (h : ∀ c, v ≠ .closure c) : Mirroring cfg start root g v :=
  fun c hValue => absurd hValue (h c)

theorem AllMirroring.write {target : ScopeId} (h : AllMirroring cfg start root g)
    (hValue : Mirroring cfg start root g v) :
    AllMirroring cfg start root (g.write target name v) := by
  intro id n w hLookup
  rcases Scopes.lookup?_write_cases hLookup with rfl | hOld
  · exact hValue.extend Scopes.extends_write
  · exact (h id n w hOld).extend Scopes.extends_write

theorem AllMirroring.enclose {outer : ScopeId} (h : AllMirroring cfg start root g) :
    AllMirroring cfg start root (g.enclose outer).2 := by
  intro id n w hLookup
  exact (h id n w (Scopes.lookup?_enclose_cases hLookup)).extend Scopes.extends_enclose

theorem AllMirroring.resolve (h : AllMirroring cfg start root g) :
    Mirroring cfg start root g (g.resolve env name) := by
  by_cases hNull : g.resolve env name = .null
  · rw [hNull]
    exact mirroring_plain nofun
  · obtain ⟨owner, -, hLookup⟩ := Scopes.owner?_of_resolve hNull
    exact h owner name _ hLookup

theorem AllMirroring.bindParams {span : Option Span} {args : List Value}
    (h : AllMirroring cfg start root s.scopes)
    (hArgs : ∀ v ∈ args, Mirroring cfg start root s.scopes v) :
    Ensures (bindParams s.scopes.all.size span names args)
      { s with scopes := (s.scopes.enclose c.scope).2 }
      (fun t => AllMirroring cfg start root t.scopes ∧ s.scopes.Extends t.scopes)
      fun _ _ => True := by
  refine bindParams_ensures ⟨h.enclose, Scopes.extends_enclose⟩ ?_
  rintro t name v ⟨hAll, hExtends⟩ hValue -
  refine ⟨hAll.write ?_, hExtends.trans Scopes.extends_write⟩
  rcases hValue with rfl | hMem
  · exact mirroring_plain nofun
  · exact (hArgs v hMem).extend hExtends

/-- What an evaluation starts inside a node is one of its operands. -/
theorem Inside.operand (h : Inside cfg m m') :
    ∃ n, cfg.table.node? m.node = some n ∧ m'.node ∈ n.form.operands cfg.table := by
  cases h with
  | argument hNode _ hArgs =>
    exact ⟨_, hNode, by simp [Form.operands, Form.children, Form.arguments, hArgs]⟩
  | printed hNode | left hNode | right hNode | condition hNode | consequent hNode
  | alternative hNode | test hNode | body hNode | first hNode | second hNode | declared hNode
  | assigned hNode | callee hNode =>
    exact ⟨_, hNode, by simp [Form.operands, Form.children, Form.parts]⟩

/-- What an evaluation starts inside a node stands in the same functions as the node. -/
theorem Inside.within (h : Inside cfg m m') (hWithin : cfg.table.Within root m.node fs) :
    cfg.table.Within root m'.node fs := by
  obtain ⟨n, hNode, hMem⟩ := h.operand
  exact hWithin.operand hNode hMem

/-- Nodes are evaluated in scopes that mirror the functions they stand inside. -/
def lexicalScopes (cfg : Setting) (start : Moment) (root : NodeId) : Invariant cfg where
  Holds s := AllMirroring cfg start root s.scopes
  Later s t := s.scopes.Extends t.scopes
  Valid s v := Mirroring cfg start root s.scopes v
  Here m := Visits cfg start m ∧ ∃ fs, cfg.table.Within root m.node fs ∧
    Mirrors cfg start m.state.scopes m.env fs
  refl s := .refl s.scopes
  trans := .trans
  valid_later := Mirroring.extend
  valid_plain := mirroring_plain
  inside := by
    rintro m m' ⟨hVisits, fs, hWithin, hMirrors⟩ hInside hLater
    refine ⟨hVisits.next (.inside hInside), fs, hInside.within hWithin, ?_⟩
    rw [hInside.env_eq]
    exact hMirrors.extend hLater
  applies := by
    rintro m c s m' ⟨hVisits, -⟩ hApplies - hClosure - -
    obtain ⟨f, fs, hClosureOf, hWithin, hMirrors⟩ := hClosure c rfl
    obtain ⟨span, hNode⟩ := hClosureOf.node?
    refine ⟨hVisits.next (.applies hApplies), f :: fs, ?_,
      hMirrors.applies hClosureOf hVisits hApplies⟩
    rw [(hApplies.scopes hMirrors.exists_scope).1]
    exact hWithin.body hNode
  resolved _ hHolds := hHolds.resolve
  printed hHolds := ⟨hHolds, .refl _⟩
  deeper hHolds := ⟨hHolds, .refl _⟩
  declared _ _ hHolds hValid _ := ⟨hHolds.write hValid, Scopes.extends_write⟩
  assigned _ _ hHolds hValid := ⟨hHolds.write hValid, Scopes.extends_write⟩
  made := by
    rintro m c t ⟨hVisits, fs, hWithin, hMirrors⟩ hMakes hHolds
    have hClosure : ClosureOf cfg start m.node c := ⟨m, t, hVisits, rfl, hMakes⟩
    cases hMakes with
    | function hNode =>
      refine ⟨hHolds, .refl _, ?_⟩
      rintro c' ⟨⟩
      exact ⟨_, fs, hClosure, hWithin, hMirrors⟩
  bound hHolds _ hArgs _ := hHolds.bindParams hArgs

/-! ## Programs -/

/-- The start of the run of a program in fresh scopes. -/
def Moment.ofProgram (p : Program) (fuel : Nat) : Moment :=
  ⟨fuel, p.root, Scopes.global, State.initial⟩

theorem allMirroring_initial : AllMirroring cfg start root Scopes.initial := by
  intro id name v hLookup
  obtain ⟨scope, hScope, hValue⟩ := Option.bind_eq_some_iff.mp hLookup
  have hMem := Array.mem_of_getElem? hScope
  rw [Scopes.initial, List.mem_toArray, List.mem_singleton] at hMem
  rw [hMem] at hValue
  cases hValue

/-- Whenever a run of a program evaluates a node, the chain of its scope mirrors the functions that
the node stands inside, and ends with the root. -/
theorem chain_mirrors_functions {source : String} {p : Program}
    (hRead : readProgram source = .ok p) (o : Options) (fuel : Nat) {m : Moment}
    (hVisits : Visits (o.setting p.table) (.ofProgram p fuel) m) :
    ∃ fs es, (∀ fs', p.table.Within p.root m.node fs' ↔ fs' = fs) ∧
      m.state.scopes.chain m.env = es ++ [Scopes.global] ∧
      (m.state.scopes.chain m.env).length = fs.length + 1 ∧
      List.Forall₂ (fun e f => Opened (o.setting p.table) (.ofProgram p fuel) e f ∧
        BindsParams p.table m.state.scopes e f) es fs := by
  let inv := lexicalScopes (o.setting p.table) (.ofProgram p fuel) p.root
  have hChain : Scopes.initial.chain Scopes.global = [] ++ [Scopes.global] := by
    have hRoot : Scopes.global < Scopes.initial.all.size := Nat.zero_lt_one
    rw [Scopes.chain_of_lt hRoot]
    rfl
  have hHere : inv.Here (.ofProgram p fuel) :=
    ⟨.start, [], .root, Nat.zero_lt_one, [], hChain, .nil⟩
  have hHolds : inv.Holds State.initial := allMirroring_initial
  obtain ⟨⟨-, fs, hWithin, -, es, hScopes, hOpened⟩, -⟩ :=
    Invariant.holds_of_visits hHere hHolds hVisits
  refine ⟨fs, es, fun fs' => ⟨fun hOther => ?_, fun hSame => hSame ▸ hWithin⟩, hScopes, ?_, hOpened⟩
  · exact hOther.unique (forest_of_readProgram hRead) hWithin
  · rw [hScopes, List.length_append, hOpened.length_eq, List.length_singleton]

def identityCall : String := "(function (x) x;)(1)"

/-- The program of `identityCall`, in which node 1 is the function and node 0 its body. -/
def identityProgram : Program where
  table := ⟨#[⟨.ref ⟨1⟩, ⟨14, 15⟩⟩, ⟨.function ⟨0, 1⟩ 0, ⟨1, 16⟩⟩, ⟨.int 1, ⟨18, 19⟩⟩,
    ⟨.call 1 ⟨0, 1⟩, ⟨1, 20⟩⟩], #[2], #[⟨1⟩]⟩
  root := 3
  names := ⟨#["", "x"]⟩

theorem chain_mirrors_functions_identity : readProgram identityCall = .ok identityProgram ∧
    ∃ m, Visits (Options.default.setting identityProgram.table) (.ofProgram identityProgram 2) m ∧
      m.node = 0 ∧ (m.state.scopes.chain m.env).length = 2 ∧ ∃ e,
        Opened (Options.default.setting identityProgram.table) (.ofProgram identityProgram 2) e 1 ∧
        BindsParams identityProgram.table m.state.scopes e 1 := by
  have hRead : readProgram identityCall = .ok identityProgram := by decide +kernel
  have hCall : identityProgram.table.node? 3 = some ⟨.call 1 ⟨0, 1⟩, ⟨1, 20⟩⟩ := rfl
  have hFunction : identityProgram.table.node? 1 = some ⟨.function ⟨0, 1⟩ 0, ⟨1, 16⟩⟩ := rfl
  have hVisits : Visits (Options.default.setting identityProgram.table)
      (.ofProgram identityProgram 2) _ :=
    .next .start (.applies (.call hCall rfl rfl rfl (.body (by decide) rfl (by decide) rfl)))
  have hWithin : identityProgram.table.Within identityProgram.root 0 [1] :=
    .body (.operand .root hCall List.mem_cons_self) hFunction
  obtain ⟨fs, es, hOnly, -, hLength, hOpened⟩ := chain_mirrors_functions hRead .default 2 hVisits
  obtain rfl := (hOnly [1]).mp hWithin
  refine ⟨hRead, _, hVisits, rfl, hLength, ?_⟩
  cases hOpened with
  | cons hScope _ => exact ⟨_, hScope⟩

end FeatherScript.Eval
