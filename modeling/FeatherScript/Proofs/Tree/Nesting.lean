import FeatherScript.Proofs.Tree.Parts

/-!
# Nested spans

The span of a node encloses those of its children, and the children stand in turn: each of them
starts where the one before it stopped, or later. Where tokens and nodes stand in turn, the span
from the first of them to the last one encloses what stands between, so a table whose nodes are
made in this way is nested.

* `Span.InTurn`: spans that follow each other between two offsets.
* `InTurn.enclose`, `InTurn.encloseBoth`: the span from the first one on.
* `NodeTable.Nested`: every node encloses its children, which stand in turn.
* `Nested.addNode`, `Nested.addCall`, `Nested.addFunction`, `Nested.addRun`: growing such a table.
-/

namespace FeatherScript

namespace Span

/-- Spans between two offsets, each of them ordered and not before the end of the last one. -/
inductive InTurn : Nat → List Span → Nat → Prop
  | nil {p q} (hLe : p ≤ q) : InTurn p [] q
  | cons {p a rest q} (hStart : p ≤ a.start) (hOrdered : a.start ≤ a.stop)
      (hRest : InTurn a.stop rest q) : InTurn p (a :: rest) q

namespace InTurn

variable {p p' q q' r : Nat} {a b : Span} {xs ys : List Span}

theorem le (h : InTurn p xs q) : p ≤ q := by
  induction h with
  | nil hLe => exact hLe
  | cons hStart hOrdered _ ih => exact Nat.le_trans hStart (Nat.le_trans hOrdered ih)

theorem mono_left (hLe : p' ≤ p) (h : InTurn p xs q) : InTurn p' xs q := by
  cases h with
  | nil hLess => exact .nil (Nat.le_trans hLe hLess)
  | cons hStart hOrdered hRest => exact .cons (Nat.le_trans hLe hStart) hOrdered hRest

theorem append (h : InTurn p xs q) (hMore : InTurn q ys r) : InTurn p (xs ++ ys) r := by
  induction h with
  | nil hLe => exact hMore.mono_left hLe
  | cons hStart hOrdered _ ih => exact .cons hStart hOrdered (ih hMore)

theorem mono_right (hLe : q ≤ q') (h : InTurn p xs q) : InTurn p xs q' :=
  List.append_nil xs ▸ h.append (.nil hLe)

/-- The first two spans end before the others start. -/
theorem split (h : InTurn p (a :: b :: xs) q) : InTurn p [a, b] b.stop ∧ InTurn b.stop xs q := by
  cases h with
  | cons hStart hOrdered hRest =>
    cases hRest with
    | cons hStart' hOrdered' hRest' =>
      exact ⟨.cons hStart hOrdered (.cons hStart' hOrdered' (.nil (Nat.le_refl _))), hRest'⟩

/-- Some spans can be left out. -/
theorem sublist (hSub : ys.Sublist xs) (h : InTurn p xs q) : InTurn p ys q := by
  induction hSub generalizing p with
  | slnil => exact h
  | cons a _ ih =>
    cases h with
    | cons hStart hOrdered hRest =>
      exact (ih hRest).mono_left (Nat.le_trans hStart hOrdered)
  | cons_cons a _ ih =>
    cases h with
    | cons hStart hOrdered hRest => exact .cons hStart hOrdered (ih hRest)

theorem within (h : InTurn p xs q) (hMem : a ∈ xs) :
    p ≤ a.start ∧ a.start ≤ a.stop ∧ a.stop ≤ q := by
  have hOnly : InTurn p [a] q := h.sublist (List.singleton_sublist.mpr hMem)
  cases hOnly with
  | cons hStart hOrdered hRest => exact ⟨hStart, hOrdered, hRest.le⟩

theorem pairwise (h : InTurn p xs q) : xs.Pairwise fun a b => a.stop ≤ b.start := by
  induction h with
  | nil => exact .nil
  | cons _ _ hRest ih => exact .cons (fun b hMem => (hRest.within hMem).1) ih

/-- The span from the first of some spans up to the end of another one encloses them. -/
theorem enclose (h : InTurn p (a :: xs) b.stop) (hStart : a.start ≤ b.start) :
    InTurn p [a.merge b] b.stop ∧ InTurn (a.merge b).start (a :: xs) (a.merge b).stop := by
  cases h with
  | cons hBefore hOrdered hRest =>
    have hMerge : a.merge b = ⟨a.start, b.stop⟩ := by
      rw [merge, Nat.min_eq_left hStart, Nat.max_eq_right hRest.le]
    rw [hMerge]
    exact ⟨.cons hBefore (Nat.le_trans hOrdered hRest.le) (.nil (Nat.le_refl _)),
      .cons (Nat.le_refl _) hOrdered hRest⟩

theorem toLast (h : InTurn p (xs ++ [b]) q) : InTurn p (xs ++ [b]) b.stop := by
  induction xs generalizing p with
  | nil =>
    cases h with
    | cons hStart hOrdered _ => exact .cons hStart hOrdered (.nil (Nat.le_refl _))
  | cons a xs ih =>
    cases h with
    | cons hStart hOrdered hRest => exact .cons hStart hOrdered (ih hRest)

/-- The span over the first and the last one of some spans encloses them. -/
theorem encloseBoth (h : InTurn p (a :: xs ++ [b]) q) :
    InTurn p [a.merge b] q ∧
      InTurn (a.merge b).start (a :: xs ++ [b]) (a.merge b).stop := by
  have hLast : b ∈ a :: xs ++ [b] := List.mem_append_right _ (List.mem_singleton_self b)
  have hStart : a.start ≤ b.start := by
    cases h with
    | cons _ hOrdered hRest =>
      have hMem : b ∈ xs ++ [b] := List.mem_append_right _ (List.mem_singleton_self b)
      exact Nat.le_trans hOrdered (hRest.within hMem).1
  obtain ⟨hWhole, hInside⟩ := h.toLast.enclose hStart
  exact ⟨hWhole.mono_right (h.within hLast).2.2, hInside⟩

theorem enclosePair (h : InTurn p [a, b] q) :
    InTurn p [a.merge b] q ∧ InTurn (a.merge b).start [a, b] (a.merge b).stop :=
  @encloseBoth p q a b [] h

end InTurn

end Span

open FeatherScript.Span

/-! ## Tables -/

namespace NodeTable

variable {t u : NodeTable} {id : NodeId} {ids : List NodeId} {span : Span} {spans : List Span}

/-- There is a node of this number, and it stands over the span. -/
def StandsOver (t : NodeTable) (id : NodeId) (span : Span) : Prop :=
  ∃ n, t.node? id = some n ∧ n.span = span

theorem StandsOver.of_grows (hGrows : t.Grows u) (h : t.StandsOver id span) :
    u.StandsOver id span :=
  h.imp fun _ hAt => ⟨node?_of_grows hGrows hAt.1, hAt.2⟩

theorem StandsOver.spanOf_eq (h : t.StandsOver id span) : t.spanOf id = span := by
  obtain ⟨n, hNode, rfl⟩ := h
  rw [spanOf, hNode]
  rfl

theorem standsOver_of_grows (hGrows : t.Grows u) (h : List.Forall₂ t.StandsOver ids spans) :
    List.Forall₂ u.StandsOver ids spans :=
  h.imp fun _ _ => StandsOver.of_grows hGrows

theorem standsOver_addNode (t : NodeTable) (form : Form) (span : Span) :
    (t.addNode form span).2.StandsOver (t.addNode form span).1 span :=
  ⟨_, t.node?_addNode form span, rfl⟩

end NodeTable

/-- The children of a construct stand in turn inside of a span. -/
structure Form.NestedIn (t : NodeTable) (span : Span) (form : Form) : Prop where
  hasArgs : form.HasArgs t
  inTurn : ∃ spans, List.Forall₂ t.StandsOver (form.children t) spans ∧
    InTurn span.start spans span.stop

namespace NodeTable

theorem nestedIn_of_grows {t u : NodeTable} {form : Form} {span : Span} (hGrows : t.Grows u)
    (h : form.NestedIn t span) : form.NestedIn u span := by
  obtain ⟨hArgs, spans, hOver, hTurn⟩ := h
  refine ⟨hasArgs_of_grows hGrows hArgs, spans, ?_, hTurn⟩
  rw [children_of_grows hGrows hArgs]
  exact standsOver_of_grows hGrows hOver

end NodeTable

namespace Form.NestedIn

variable {t : NodeTable} {span : Span} {form : Form} {child : NodeId}

theorem exists_child (h : form.NestedIn t span) (hChild : child ∈ form.children t) :
    ∃ c, t.node? child = some c ∧ span.start ≤ c.span.start ∧ c.span.stop ≤ span.stop := by
  obtain ⟨-, spans, hOver, hTurn⟩ := h
  obtain ⟨place, hMem, c, hNode, rfl⟩ := exists_of_mem_forall₂ hOver hChild
  obtain ⟨hStart, -, hStop⟩ := hTurn.within hMem
  exact ⟨c, hNode, hStart, hStop⟩

theorem pairwise (h : form.NestedIn t span) :
    (form.children t).Pairwise fun a b => (t.spanOf a).stop ≤ (t.spanOf b).start := by
  obtain ⟨-, spans, hOver, hTurn⟩ := h
  have hSpans : (form.children t).map t.spanOf = spans := by
    rw [← List.forall₂_eq_eq_eq, List.forall₂_map_left_iff]
    exact hOver.imp fun _ _ => NodeTable.StandsOver.spanOf_eq
  exact List.pairwise_map.mp (hSpans ▸ hTurn.pairwise)

theorem ordered (h : form.NestedIn t span) : span.start ≤ span.stop :=
  h.inTurn.elim fun _ hAt => hAt.2.le

end Form.NestedIn

namespace NodeTable

variable {t u : NodeTable} {id : NodeId} {ids : List NodeId} {spans : List Span} {p q : Nat}

/-- Every node encloses its children, which stand in turn. -/
def Nested (t : NodeTable) : Prop := ∀ n ∈ t.nodes.toList, n.form.NestedIn t n.span

/-- A nested table has a node between two offsets. -/
structure Holds (t : NodeTable) (p : Nat) (id : NodeId) (q : Nat) : Prop where
  nested : t.Nested
  placed : ∃ span, t.StandsOver id span ∧ InTurn p [span] q

namespace Nested

/-- Lists are added without a node. -/
theorem of_grows (h : t.Nested) (hGrows : t.Grows u) (hNodes : u.nodes = t.nodes) : u.Nested :=
  fun n hMem => nestedIn_of_grows hGrows (h n (hNodes ▸ hMem))

theorem addNode {form : Form} {span : Span} (h : t.Nested) (hArgs : form.HasArgs t)
    (hOver : List.Forall₂ t.StandsOver (form.children t) spans)
    (hInside : InTurn span.start spans span.stop) : (t.addNode form span).2.Nested := by
  intro n hMem
  have hGrows := t.grows_addNode form span
  rw [toList_addNode] at hMem
  rcases List.mem_append.mp hMem with hOld | hLast
  · exact nestedIn_of_grows hGrows (h n hOld)
  · rw [List.mem_singleton.mp hLast]
    exact nestedIn_of_grows hGrows ⟨hArgs, spans, hOver, hInside⟩

/-- A node between two offsets, over its children. -/
theorem holds_addNode {form : Form} {span : Span} (h : t.Nested) (hArgs : form.HasArgs t)
    (hOver : List.Forall₂ t.StandsOver (form.children t) spans)
    (hInside : InTurn span.start spans span.stop) (hWhole : InTurn p [span] q) :
    (t.addNode form span).2.Holds p (t.addNode form span).1 q :=
  ⟨h.addNode hArgs hOver hInside, span, t.standsOver_addNode form span, hWhole⟩

/-- The node over two nodes in turn. -/
theorem addOver {form : Form} {left right : NodeId} {a b : Span} (h : t.Nested)
    (hArgs : form.HasArgs t) (hForm : form.children t = [left, right])
    (hLeft : t.StandsOver left a) (hRight : t.StandsOver right b) (hTurn : InTurn p [a, b] q) :
    (t.addNode form ((t.spanOf left).merge (t.spanOf right))).2.Holds p
      (t.addNode form ((t.spanOf left).merge (t.spanOf right))).1 q := by
  obtain ⟨hWhole, hInside⟩ := hTurn.enclosePair
  rw [hLeft.spanOf_eq, hRight.spanOf_eq]
  refine h.holds_addNode hArgs ?_ hInside hWhole
  rw [hForm]
  exact .cons hLeft (.cons hRight .nil)

theorem addCall {callee : NodeId} {place close : Span} (h : t.Nested)
    (hCallee : t.StandsOver callee place) (hOver : List.Forall₂ t.StandsOver ids spans)
    (hTurn : InTurn p (place :: spans ++ [close]) q) :
    (t.addCall callee ids close).2.Holds p (t.addCall callee ids close).1 q := by
  have hGrows := t.grows_addArgs ids
  have hChildren : List.Forall₂ (t.addArgs ids).2.StandsOver
      ((Form.call callee (t.addArgs ids).1).children (t.addArgs ids).2) (place :: spans) := by
    rw [children_call_addArgs]
    exact standsOver_of_grows hGrows (.cons hCallee hOver)
  obtain ⟨hWhole, hInside⟩ := hTurn.encloseBoth
  have hParts := hInside.sublist (List.sublist_append_left (place :: spans) [close])
  rw [← (hCallee.of_grows hGrows).spanOf_eq] at hChildren hParts hWhole
  exact (h.of_grows hGrows rfl).holds_addNode ⟨ids, t.args?_addArgs ids⟩ hChildren hParts hWhole

/-- A function that is declared stands where its declaration does. -/
theorem addFunction {name : Option Name} {names : List Name} {body : NodeId} {span place : Span}
    (h : t.Nested) (hBody : t.StandsOver body place) (hInside : InTurn span.start [place] span.stop)
    (hWhole : InTurn p [span] q) :
    (t.addFunction name names body span).2.Holds p (t.addFunction name names body span).1 q := by
  let v := (t.addParams names).2
  have hGrows : t.Grows v := t.grows_addParams names
  have hFunction : (v.addNode (.function (t.addParams names).1 body) span).2.Nested :=
    (h.of_grows hGrows rfl).addNode trivial (.cons (hBody.of_grows hGrows) .nil) hInside
  have hOver := v.standsOver_addNode (.function (t.addParams names).1 body) span
  cases name with
  | none => exact ⟨hFunction, span, hOver, hWhole⟩
  | some name =>
    have hSelf : InTurn span.start [span] span.stop :=
      .cons (Nat.le_refl _) hInside.le (.nil (Nat.le_refl _))
    exact hFunction.holds_addNode trivial (.cons hOver .nil) hSelf hWhole

theorem addChain {first : NodeId} {more : List NodeId} {a : Span} (h : t.Nested)
    (hFirst : t.StandsOver first a) (hMore : List.Forall₂ t.StandsOver more spans)
    (hTurn : InTurn p (a :: spans) q) :
    (t.addChain first more).2.Holds p (t.addChain first more).1 q := by
  induction more generalizing t first a spans with
  | nil =>
    cases hMore
    exact ⟨h, a, hFirst, hTurn⟩
  | cons second more ih =>
    cases hMore with
    | @cons _ b _ spans hSecond hMore =>
      obtain ⟨hPairTurn, hRest⟩ := hTurn.split
      obtain ⟨hNested, span, hOver, hPair⟩ : (t.addPair first second).2.Holds p
          (t.addPair first second).1 b.stop := h.addOver trivial rfl hFirst hSecond hPairTurn
      exact ih hNested hOver (standsOver_of_grows (t.grows_addNode _ _) hMore) (hPair.append hRest)

/-- A run is a chain of its statements; an empty run stands over the span given for it. -/
theorem addRun {emptySpan : Span} (h : t.Nested) (hOver : List.Forall₂ t.StandsOver ids spans)
    (hTurn : InTurn p spans q) (hEmpty : InTurn p [emptySpan] q) :
    (t.addRun emptySpan ids).2.Holds p (t.addRun emptySpan ids).1 q := by
  cases hOver with
  | nil =>
    have hOrdered := (hEmpty.within (List.mem_singleton_self emptySpan)).2.1
    exact h.holds_addNode trivial .nil (.nil hOrdered) hEmpty
  | cons hFirst hMore => exact h.addChain hFirst hMore hTurn

end Nested

end NodeTable

end FeatherScript
