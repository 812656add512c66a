import FeatherScript.Proofs.Grammar.Keeping
import FeatherScript.Proofs.Grammar.Planting
import FeatherScript.Proofs.Tree.Tiling

/-!
# The table of a parse

With or without errors, the table of a parse is a forest whose children stand before their parents.
The slice of a call holds the arguments that were read between the parentheses of that call, and the
slice of a function the names that were read between those of that function; the slices lie one
after the other in the order in which the calls and functions were stored. Without errors all nodes
are part of the tree of the root, which is the last one.

* `Sourced`: where in the tokens the slice of a node was read.
* `sourced_kept`: it was read somewhere, for all nodes that are ever stored.
* `parse_arranges`: the table of every parse.
-/

namespace FeatherScript

namespace NodeTable

variable {t : NodeTable}

/-- A table with one more node has that node and those it had. -/
theorem node?_addNode_cases {form : Form} {span : Span} {id : NodeId} {n : Node}
    (h : (t.addNode form span).2.node? id = some n) :
    t.node? id = some n ∨ id = t.size ∧ n = ⟨form, span⟩ := by
  by_cases hOld : id < t.size
  · rw [node?_addNode_of_lt form span hOld] at h
    exact .inl h
  · obtain ⟨hSize, rfl⟩ := Array.getElem?_eq_some_iff.mp h
    have hPushed : id < t.nodes.size + 1 := Nat.lt_of_lt_of_eq hSize (Array.size_push _)
    obtain rfl : id = t.size := Nat.le_antisymm (Nat.lt_succ_iff.mp hPushed) (Nat.not_lt.mp hOld)
    exact .inr ⟨rfl, by simp [addNode, size]⟩

end NodeTable

namespace Grammar

open NodeTable

/-! ## Where slices come from -/

/-- The slice of a node was read from the tokens. A call was stored when its argument list had been
read, and a function when its names and its body had: the node was the next one then, and its slice
the next one of its list. Other nodes have no slice. -/
inductive Sourced (tokens : List Token) (t : NodeTable) (id : NodeId) : Node → Prop
  | plain {form span} (hPlain : form.Plain) : Sourced tokens t id ⟨form, span⟩
  | call {callee slice ids close s u} (hReached : (State.initial tokens).Advances s)
      (hRead : CallRead s ids close u) (hGrows : u.table.Grows t) (hId : id = u.table.size)
      (hSlice : slice = ⟨u.table.args.size, ids.length⟩) (hArgs : t.args? slice = some ids) :
      Sourced tokens t id ⟨.call callee slice, (u.table.spanOf callee).merge close⟩
  | function {names body slice start s u} (hReached : (State.initial tokens).Advances s)
      (hRead : FunctionRead s start names body u) (hGrows : u.table.Grows t)
      (hId : id = u.table.size) (hSlice : slice = ⟨u.table.params.size, names.length⟩)
      (hParams : t.params? slice = some names) :
      Sourced tokens t id ⟨.function slice body, start.merge u.last⟩

variable {tokens : List Token}

theorem Sourced.of_grows {t u : NodeTable} {id : NodeId} {n : Node} (h : Sourced tokens t id n)
    (hGrows : t.Grows u) : Sourced tokens u id n := by
  cases h with
  | plain hPlain => exact .plain hPlain
  | call hReached hRead hBefore hId hSlice hArgs =>
    exact .call hReached hRead (hBefore.trans hGrows) hId hSlice (args?_of_grows hGrows hArgs)
  | function hReached hRead hBefore hId hSlice hParams =>
    exact .function hReached hRead (hBefore.trans hGrows) hId hSlice
      (params?_of_grows hGrows hParams)

/-- A state that was reached from some tokens, all of whose nodes come from them. -/
structure FromTokens (tokens : List Token) (s : State) : Prop where
  reached : (State.initial tokens).Advances s
  sourced : ∀ id n, s.table.node? id = some n → Sourced tokens s.table id n

namespace State

theorem Takes.advances {s t : State} {kind : TokenKind} {span : Span} (h : s.Takes kind span t)
    (hMore : kind ≠ .endOfFile) : s.Advances t := by
  obtain ⟨⟨hRest, hLast⟩, hTable, hErrors⟩ := h
  refine ⟨⟨[⟨kind, span⟩], hRest, hLast, ?_⟩, hTable ▸ .refl _, hErrors ▸ List.prefix_rfl⟩
  simpa using hMore

theorem advances_table (s : State) {t : NodeTable} (h : s.table.Grows t) :
    s.Advances { s with table := t } :=
  ⟨⟨[], rfl, rfl, List.forall_mem_nil _⟩, h, List.prefix_rfl⟩

end State

/-- Adding a node that comes from the tokens. -/
theorem FromTokens.addNode {s : State} {t : NodeTable} {form : Form} {span : Span}
    (h : FromTokens tokens s) (hGrows : s.table.Grows t) (hNodes : t.nodes = s.table.nodes)
    (hNew : Sourced tokens (t.addNode form span).2 t.size ⟨form, span⟩) :
    FromTokens tokens { s with table := (t.addNode form span).2 } := by
  have hAll : s.table.Grows (t.addNode form span).2 := hGrows.trans (t.grows_addNode form span)
  refine ⟨h.reached.trans (s.advances_table hAll), fun id n hNode => ?_⟩
  rcases node?_addNode_cases hNode with hOld | ⟨rfl, rfl⟩
  · rw [node?, hNodes] at hOld
    exact (h.sourced id n hOld).of_grows hAll
  · exact hNew

/-- Every step of a parse keeps that all nodes come from the tokens. -/
theorem sourced_kept (tokens : List Token) : Kept (FromTokens tokens) where
  take hMore hTakes h := by
    refine ⟨h.reached.trans (hTakes.advances hMore), ?_⟩
    rw [hTakes.table]
    exact h.sourced
  recover e _ h :=
    ⟨h.reached.trans ((State.advances_record _ e).trans (State.advances_recover _ e)), h.sourced⟩
  node span hPlain h := h.addNode (.refl _) rfl (.plain hPlain)
  call {s t ids close} callee hRead hStart hEnd := by
    have hGrows := t.table.grows_addArgs ids
    have hNode := (t.table.addArgs ids).2.grows_addNode
      (.call callee (t.table.addArgs ids).1) ((t.table.spanOf callee).merge close)
    exact hEnd.addNode hGrows rfl (.call hStart.reached hRead (hGrows.trans hNode) rfl rfl
      (args?_of_grows hNode (t.table.args?_addArgs ids)))
  function {s t start names body} hRead hStart hEnd := by
    have hGrows := t.table.grows_addParams names
    have hNode := (t.table.addParams names).2.grows_addNode
      (.function (t.table.addParams names).1 body) (start.merge t.last)
    exact hEnd.addNode hGrows rfl (.function hStart.reached hRead (hGrows.trans hNode) rfl rfl
      (params?_of_grows hNode (t.table.params?_addParams names)))

/-- All nodes of a parse come from its tokens. -/
theorem parse_sourced (tokens : List Token) {id : NodeId} {n : Node}
    (hNode : (parse tokens).table.node? id = some n) :
    Sourced tokens (parse tokens).table id n := by
  have hStart : FromTokens tokens (.initial tokens) := ⟨.refl _, fun id n hNode => by cases hNode⟩
  have hEnd := topStatements_keeps (sourced_kept tokens) (.initial tokens) hStart
  exact ((sourced_kept tokens).addRun hEnd).sourced id n hNode

/-! ## The theorem -/

/-- For all tokens, with or without errors: children stand before their parents and every node is
the child of one node at most, once; the slices of the calls and those of the functions follow each
other through the whole of their lists, in the order of the nodes; and each slice holds what was
read as the arguments or the names of its own construct. Without errors the root is the last node,
and every node leads to it from parent to parent. -/
theorem parse_arranges (tokens : List Token) :
    (parse tokens).table.Arranged ∧
    (∀ child parent, (parse tokens).table.Child child parent → child < parent) ∧
    (parse tokens).table.references.Nodup ∧
    (∀ child parent parent', (parse tokens).table.Child child parent →
      (parse tokens).table.Child child parent' → parent = parent') ∧
    (∀ id n, (parse tokens).table.node? id = some n →
      Sourced tokens (parse tokens).table id n) ∧
    ((parse tokens).errors = [] → (parse tokens).root + 1 = (parse tokens).table.size ∧
      ∀ id < (parse tokens).table.size,
        Relation.ReflTransGen (parse tokens).table.Child id (parse tokens).root) := by
  obtain ⟨orphans, hBuilt, hClean⟩ := parse_built tokens
  have hArranged := hBuilt.arranged
  refine ⟨hArranged, fun child parent hChild => hArranged.child_lt hChild,
    hBuilt.forest.nodup_references, fun child parent parent' => hBuilt.forest.parent_unique,
    fun id n => parse_sourced tokens, fun hErrors => ?_⟩
  rw [hClean hErrors] at hBuilt
  exact ⟨hBuilt.forest.root_last hArranged, fun id => hBuilt.forest.reaches_root hArranged⟩

end Grammar

/-- The table of a program without errors is well-formed, and its root is one of its nodes. -/
theorem wellFormed_of_readProgram {source : String} {p : Program}
    (hRead : readProgram source = .ok p) : p.table.WellFormed ∧ p.root < p.table.size := by
  obtain ⟨-, hTable, hRoot⟩ := parsed_of_readProgram hRead
  obtain ⟨orphans, hBuilt, -⟩ := Grammar.parse_built (lex source .initial).tokens
  rw [hTable, hRoot]
  exact ⟨hBuilt.arranged.formed, hBuilt.forest.pending_lt _ (List.mem_singleton_self _)⟩

end FeatherScript
