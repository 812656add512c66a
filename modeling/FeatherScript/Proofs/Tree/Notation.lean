import FeatherScript.Program
import FeatherScript.Proofs.Tree.Outline

/-!
# The written form of a tree

The text of a symbolic expression can be read in one way only. An atom ends at the first blank or
parenthesis, a list at its closing parenthesis, and nothing but a blank stands between two members;
so the text of an expression, with any text after it that starts with a blank or a closing
parenthesis, has that expression in front and no other. The text of a tree therefore determines its
outline.

* `SExpr.Plain`: an expression whose atoms have characters, but no blanks or parentheses.
* `SExpr.text_append_inj`: a text begins with at most one plain expression.
* `NodeTable.dump_faithful`: nodes that are dumped alike, in whatever tables, have the same outline.
-/

namespace FeatherScript

open Text

/-! ## Unique readability -/

/-- A character that ends an atom. -/
def isDelimiter (c : Char) : Bool := c = ' ' || c = '(' || c = ')'

/-- A text that is written as an atom: it is not empty and has no delimiters. -/
def IsAtom (text : String) : Prop :=
  text.toList ≠ [] ∧ ∀ c ∈ text.toList, isDelimiter c = false

namespace SExpr

/-- Every atom in the expression is one by its text. -/
inductive Plain : SExpr → Prop
  | atom {text} (h : IsAtom text) : Plain (.atom text)
  | list {members} (h : ∀ x ∈ members, Plain x) : Plain (.list members)

theorem Plain.members {members : List SExpr} (h : (SExpr.list members).Plain) :
    ∀ x ∈ members, x.Plain := by
  cases h with
  | list h => exact h

theorem Plain.isAtom {text : String} (h : (SExpr.atom text).Plain) : IsAtom text := by
  cases h with
  | atom h => exact h

/-- What follows an expression: nothing, or what ends an atom and starts no expression. -/
def Ends (rest : List Char) : Prop := ∀ c ∈ rest.head?, c = ' ' ∨ c = ')'

/-- The text of the members after the first one. -/
def moreText : List SExpr → List Char
  | [] => []
  | x :: xs => ' ' :: (membersText (x :: xs)).toList

theorem toList_membersText_cons (x : SExpr) (xs : List SExpr) :
    (membersText (x :: xs)).toList = x.text.toList ++ moreText xs := by
  cases xs with
  | nil => simp [membersText, moreText]
  | cons y ys => simp [membersText, moreText]

theorem ends_moreText (xs : List SExpr) (rest : List Char) : Ends (moreText xs ++ ')' :: rest) := by
  cases xs with
  | nil => simp [Ends, moreText]
  | cons x xs => simp [Ends, moreText]

theorem toList_text_list (members : List SExpr) (rest : List Char) :
    (list members).text.toList ++ rest = '(' :: ((membersText members).toList ++ ')' :: rest) := by
  simp [text]

/-- An atom starts with no parenthesis. -/
theorem exists_atom_cons {s : String} (h : IsAtom s) :
    ∃ c cs, s.toList = c :: cs ∧ c ≠ '(' ∧ c ≠ ')' := by
  obtain ⟨c, cs, hText⟩ := List.exists_cons_of_ne_nil h.1
  have hPlain : isDelimiter c = false := h.2 c (hText ▸ List.mem_cons_self)
  refine ⟨c, cs, hText, ?_, ?_⟩
  · rintro rfl
    cases hPlain
  · rintro rfl
    cases hPlain

/-- No expression starts with a closing parenthesis. -/
theorem exists_text_cons {x : SExpr} (h : x.Plain) :
    ∃ c cs, x.text.toList = c :: cs ∧ c ≠ ')' := by
  cases h with
  | atom h =>
    obtain ⟨c, cs, hText, -, hClose⟩ := exists_atom_cons h
    exact ⟨c, cs, hText, hClose⟩
  | @list members h =>
    have hText := toList_text_list members []
    rw [List.append_nil] at hText
    exact ⟨_, _, hText, by decide⟩

/-- Atoms that are followed by delimiters are the same if the texts are. -/
theorem atom_append_inj {s s' : String} {rest rest' : List Char} (hAtom : IsAtom s)
    (hAtom' : IsAtom s') (hEnds : Ends rest) (hEnds' : Ends rest')
    (hText : s.toList ++ rest = s'.toList ++ rest') : s = s' ∧ rest = rest' := by
  have hCut : ∀ {s : String} {rest : List Char}, IsAtom s → Ends rest →
      (s.toList ++ rest).takeWhile (!isDelimiter ·) = s.toList ∧
        (s.toList ++ rest).dropWhile (!isDelimiter ·) = rest := by
    intro s rest hAtom hEnds
    refine takeWhile_of_stopsAt (fun c hMem => by rw [hAtom.2 c hMem]; rfl) fun c hHead => ?_
    rcases hEnds c hHead with rfl | rfl <;> decide
  obtain ⟨hTake, hDrop⟩ := hCut hAtom hEnds
  obtain ⟨hTake', hDrop'⟩ := hCut hAtom' hEnds'
  rw [hText] at hTake hDrop
  exact ⟨String.toList_inj.mp (hTake.symm.trans hTake'), hDrop.symm.trans hDrop'⟩

/-- An atom and a list are never written alike. -/
theorem atom_text_ne_list {s : String} (h : IsAtom s) (members : List SExpr)
    (rest rest' : List Char) :
    (atom s).text.toList ++ rest ≠ (list members).text.toList ++ rest' := by
  obtain ⟨c, cs, hAtom, hOpen, -⟩ := exists_atom_cons h
  intro hText
  rw [toList_text_list, text, hAtom, List.cons_append, List.cons.injEq] at hText
  exact hOpen hText.1

/-- A list that has members is never written like one that has none. -/
theorem membersText_ne_nil {x : SExpr} (h : x.Plain) (xs : List SExpr) (rest rest' : List Char) :
    (membersText (x :: xs)).toList ++ rest ≠ (membersText []).toList ++ ')' :: rest' := by
  obtain ⟨c, cs, hFirst, hClose⟩ := exists_text_cons h
  intro hText
  rw [toList_membersText_cons, hFirst, membersText, String.toList_empty, List.nil_append,
    List.cons_append, List.cons_append, List.cons.injEq] at hText
  exact hClose hText.1

mutual

/-- A text begins with at most one expression that ends there. -/
theorem text_append_inj : ∀ (x y : SExpr) {rest rest' : List Char}, x.Plain → y.Plain →
    Ends rest → Ends rest' → x.text.toList ++ rest = y.text.toList ++ rest' →
    x = y ∧ rest = rest'
  | .atom s, .atom s', _, _, hx, hy, hEnds, hEnds', hText => by
    obtain ⟨hSame, hRest⟩ := atom_append_inj hx.isAtom hy.isAtom hEnds hEnds' hText
    exact ⟨congrArg _ hSame, hRest⟩
  | .atom s, .list ys, _, _, hx, _, _, _, hText => absurd hText (atom_text_ne_list hx.isAtom ys _ _)
  | .list xs, .atom s', _, _, _, hy, _, _, hText =>
    absurd hText.symm (atom_text_ne_list hy.isAtom xs _ _)
  | .list xs, .list ys, _, _, hx, hy, _, _, hText => by
    rw [toList_text_list, toList_text_list, List.cons.injEq] at hText
    obtain ⟨hMembers, hRest⟩ := membersText_append_inj xs ys hx.members hy.members hText.2
    exact ⟨congrArg _ hMembers, hRest⟩

/-- Before a closing parenthesis, a text begins with at most one list of members. -/
theorem membersText_append_inj : ∀ (xs ys : List SExpr) {rest rest' : List Char},
    (∀ x ∈ xs, x.Plain) → (∀ y ∈ ys, y.Plain) →
    (membersText xs).toList ++ ')' :: rest = (membersText ys).toList ++ ')' :: rest' →
    xs = ys ∧ rest = rest'
  | [], [], _, _, _, _, hText => ⟨rfl, by simpa [membersText] using hText⟩
  | [], y :: ys, _, _, _, hy, hText =>
    absurd hText.symm (membersText_ne_nil (hy y List.mem_cons_self) ys _ _)
  | x :: xs, [], _, _, hx, _, hText =>
    absurd hText (membersText_ne_nil (hx x List.mem_cons_self) xs _ _)
  | x :: xs, y :: ys, _, _, hx, hy, hText => by
    obtain ⟨hxFirst, hxMore⟩ := List.forall_mem_cons.mp hx
    obtain ⟨hyFirst, hyMore⟩ := List.forall_mem_cons.mp hy
    rw [toList_membersText_cons, toList_membersText_cons, List.append_assoc,
      List.append_assoc] at hText
    obtain ⟨rfl, hMore⟩ := text_append_inj x y hxFirst hyFirst (ends_moreText xs _)
      (ends_moreText ys _) hText
    -- a blank says that there are more members, a parenthesis that there are none
    match xs, ys, hMore with
    | [], [], hMore => exact ⟨rfl, (List.cons.inj hMore).2⟩
    | x' :: xs, y' :: ys, hMore =>
      obtain ⟨hSame, hRest⟩ := membersText_append_inj (x' :: xs) (y' :: ys) hxMore hyMore
        (List.cons.inj hMore).2
      exact ⟨congrArg _ hSame, hRest⟩

end

/-- Plain expressions with the same text are the same. -/
theorem text_inj {x y : SExpr} (hx : x.Plain) (hy : y.Plain) (hText : x.text = y.text) :
    x = y := by
  have hEnds : Ends [] := nofun
  have hAppend : x.text.toList ++ [] = y.text.toList ++ [] := by rw [hText]
  exact (text_append_inj x y hx hy hEnds hEnds hAppend).1

end SExpr

/-! ## Trees are written plainly -/

instance (text : String) : Decidable (IsAtom text) :=
  @instDecidableAnd _ _ inferInstance (List.decidableBAll _ _)

/-- Letters, digits, underscores and the minus sign are no delimiters. -/
theorem isDelimiter_eq_false {c : Char}
    (h : isWordStart c = true ∨ isWordPart c = true ∨ c.isDigit = true ∨ c = '-') :
    isDelimiter c = false := by
  refine Bool.eq_false_iff.mpr fun hDelimiter => ?_
  have hCases : c = ' ' ∨ c = '(' ∨ c = ')' := by
    simpa only [isDelimiter, Bool.or_eq_true, decide_eq_true_eq, or_assoc] using hDelimiter
  rcases hCases with rfl | rfl | rfl <;> revert h <;> decide

theorem IsIdentifier.isAtom {text : String} (h : IsIdentifier text) : IsAtom text := by
  obtain ⟨first, more, hText, hStart, hMore⟩ := h.word
  rw [IsAtom, hText]
  refine ⟨List.cons_ne_nil _ _, List.forall_mem_cons.mpr ⟨?_, fun c hMem => ?_⟩⟩
  · exact isDelimiter_eq_false (.inl hStart)
  · exact isDelimiter_eq_false (.inr (.inl (hMore c hMem)))

theorem Integer.isAtom_text (value : Int64) : IsAtom (text value) := by
  obtain ⟨digits, ⟨hNonempty, hDigits⟩, ⟨hText, -⟩ | ⟨hText, -⟩⟩ := exists_digits value
  all_goals
    have hPlain : ∀ c ∈ digits, isDelimiter c = false := fun c hMem =>
      isDelimiter_eq_false (.inr (.inr (.inl (hDigits c hMem))))
    rw [IsAtom, hText]
  · exact ⟨hNonempty, hPlain⟩
  · exact ⟨List.cons_ne_nil _ _, List.forall_mem_cons.mpr ⟨by decide, hPlain⟩⟩

theorem Head.isAtom_spelling (head : Head) : IsAtom head.spelling := by
  cases head with
  | binary op => cases op <;> decide
  | _ => decide

section

variable {showName : Name → String}

/-- A list that starts with a head is plain if the other members are. -/
theorem SExpr.plain_cons (head : Head) {members : List SExpr} (h : ∀ x ∈ members, x.Plain) :
    (SExpr.list (.atom head.spelling :: members)).Plain :=
  .list (List.forall_mem_cons.mpr ⟨.atom head.isAtom_spelling, h⟩)

theorem plain_names {params : List Name} (h : ∀ n ∈ params, IsIdentifier (showName n)) :
    (SExpr.list (params.map fun p => .atom (showName p))).Plain := by
  refine .list fun x hMem => ?_
  obtain ⟨p, hParam, rfl⟩ := List.mem_map.mp hMem
  exact .atom (h p hParam).isAtom

mutual

theorem plain_sexpr : ∀ tree : Tree, (∀ n ∈ tree.names, IsIdentifier (showName n)) →
    (tree.sexpr showName).Plain
  | .int _ value, _ => .atom (Integer.isAtom_text value)
  | .bool _ true, _ => .atom (by decide)
  | .bool _ false, _ => .atom (by decide)
  | .null _, _ => .atom (by decide)
  | .ref _ name, h => .atom (h name List.mem_cons_self).isAtom
  | .print _ argument, h => SExpr.plain_cons .print (by simpa using plain_sexpr argument h)
  | .binary _ op left right, h => by
    obtain ⟨hLeft, hRight⟩ := List.forall_mem_append.mp h
    exact SExpr.plain_cons (.binary op)
      (by simpa using ⟨plain_sexpr left hLeft, plain_sexpr right hRight⟩)
  | .branch _ condition consequent alternative, h => by
    obtain ⟨hCondition, h⟩ := List.forall_mem_append.mp h
    obtain ⟨hConsequent, hAlternative⟩ := List.forall_mem_append.mp h
    refine SExpr.plain_cons .branch ?_
    simpa using ⟨plain_sexpr condition hCondition, plain_sexpr consequent hConsequent,
      plain_sexprOption alternative hAlternative⟩
  | .loop _ condition body, h => by
    obtain ⟨hCondition, hBody⟩ := List.forall_mem_append.mp h
    exact SExpr.plain_cons .loop
      (by simpa using ⟨plain_sexpr condition hCondition, plain_sexpr body hBody⟩)
  | .sequence _ first second, h => by
    obtain ⟨hFirst, hSecond⟩ := List.forall_mem_append.mp h
    exact SExpr.plain_cons .sequence
      (by simpa using ⟨plain_sexpr first hFirst, plain_sexpr second hSecond⟩)
  | .declare _ name value, h => by
    obtain ⟨hName, hValue⟩ := List.forall_mem_cons.mp h
    exact SExpr.plain_cons .declare
      (by simpa using ⟨.atom hName.isAtom, plain_sexpr value hValue⟩)
  | .assign _ name value, h => by
    obtain ⟨hName, hValue⟩ := List.forall_mem_cons.mp h
    exact SExpr.plain_cons .assign
      (by simpa using ⟨.atom hName.isAtom, plain_sexpr value hValue⟩)
  | .function _ params body, h => by
    obtain ⟨hParams, hBody⟩ := List.forall_mem_append.mp h
    refine SExpr.plain_cons .function ?_
    simpa using ⟨plain_names hParams, plain_sexpr body hBody⟩
  | .call _ callee args, h => by
    obtain ⟨hCallee, hArgs⟩ := List.forall_mem_append.mp h
    refine SExpr.plain_cons .call ?_
    simpa using ⟨plain_sexpr callee hCallee, plain_sexprList args hArgs⟩

theorem plain_sexprOption : ∀ t : Option Tree,
    (∀ n ∈ Tree.namesOption t, IsIdentifier (showName n)) →
    ∀ x ∈ Tree.sexprOption showName t, x.Plain
  | none, _ => nofun
  | some t, h => by simpa [Tree.sexprOption] using plain_sexpr t h

theorem plain_sexprList : ∀ ts : List Tree,
    (∀ n ∈ Tree.namesList ts, IsIdentifier (showName n)) →
    ∀ x ∈ Tree.sexprList showName ts, x.Plain
  | [], _ => nofun
  | t :: ts, h => by
    obtain ⟨hFirst, hRest⟩ := List.forall_mem_append.mp h
    simpa [Tree.sexprList] using ⟨plain_sexpr t hFirst, plain_sexprList ts hRest⟩

end

end

/-! ## What a dump determines -/

/-- Trees that are written alike have the same outline, for whatever stands for names as long as
their texts determine it. -/
theorem outline_of_text {α : Type} {showName showName' : Name → String} {nameOf : String → α}
    {f f' : Name → α} {tree tree' : Tree} (h : ReadsBack showName nameOf f tree.names)
    (h' : ReadsBack showName' nameOf f' tree'.names)
    (hText : (tree.sexpr showName).text = (tree'.sexpr showName').text) :
    tree.outline f = tree'.outline f' := by
  have hPlain : (tree.sexpr showName).Plain := plain_sexpr tree fun n hMem => (h n hMem).1
  have hPlain' : (tree'.sexpr showName').Plain := plain_sexpr tree' fun n hMem => (h' n hMem).1
  have hRead := read?_sexpr tree h
  rw [SExpr.text_inj hPlain hPlain' hText, read?_sexpr tree' h'] at hRead
  exact (Option.some.inj hRead).symm

/-- The name of a text in a table. -/
def NameTable.nameOf (names : NameTable) (text : String) : Name :=
  ⟨(names.texts.idxOf? text).getD 0⟩

theorem NameTable.nameOf_lookup {names : NameTable} {n : Name}
    (hOnce : names.texts.toList.Nodup) (h : IsIdentifier (names.lookup n)) :
    names.nameOf (names.lookup n) = n := by
  have hText : names.lookup n ≠ "" := by
    intro hEmpty
    obtain ⟨first, more, hText, -⟩ := h.word
    rw [hEmpty] at hText
    cases hText
  rw [nameOf, has_iff_idxOf?.mp (has_lookup hOnce hText), Option.getD_some]

/-- Nodes that are dumped alike, in whatever tables and with whatever numbers, have trees with the
same outline: the same constructs with the same integers, the same names by their texts, the same
parameters and arguments, and an alternative of a branch in both or in none. With a single name
table that lists each text once, the names are the very same. -/
theorem NodeTable.dump_faithful {names names' : NameTable} {t t' : NodeTable} {a b : NodeId}
    {tree tree' : Tree} (hTree : t.tree? a = some tree) (hTree' : t'.tree? b = some tree')
    (hNames : ∀ n ∈ tree.names, IsIdentifier (names.lookup n))
    (hNames' : ∀ n ∈ tree'.names, IsIdentifier (names'.lookup n))
    (hDump : t.dump names a = t'.dump names' b) :
    tree.outline names.lookup = tree'.outline names'.lookup ∧
      (names' = names → names.texts.toList.Nodup → tree.outline id = tree'.outline id) := by
  have hText : (tree.sexpr names.lookup).text = (tree'.sexpr names'.lookup).text := by
    simpa only [NodeTable.dump, hTree, hTree', Option.elim_some, Tree.dump] using hDump
  constructor
  · have hBack : ReadsBack names.lookup id names.lookup tree.names := fun n hMem =>
      ⟨hNames n hMem, rfl⟩
    exact outline_of_text hBack (fun n hMem => ⟨hNames' n hMem, rfl⟩) hText
  · rintro rfl hOnce
    have hBack : ∀ {ns : List Name}, (∀ n ∈ ns, IsIdentifier (names'.lookup n)) →
        ReadsBack names'.lookup names'.nameOf id ns := fun h n hMem =>
      ⟨h n hMem, NameTable.nameOf_lookup hOnce (h n hMem)⟩
    exact outline_of_text (hBack hNames) (hBack hNames') hText

/-- A name table with one variable. -/
def oneName : NameTable := ⟨#["", "x"]⟩

/-- `(function(x) { if (x) -1 })(x)`, with a node for every construct. -/
def separateCall : NodeTable where
  nodes := #[⟨.ref ⟨1⟩, ⟨19, 20⟩⟩, ⟨.int (-1), ⟨22, 24⟩⟩, ⟨.branch 0 1 none, ⟨15, 24⟩⟩,
    ⟨.function ⟨0, 1⟩ 2, ⟨0, 26⟩⟩, ⟨.ref ⟨1⟩, ⟨28, 29⟩⟩, ⟨.call 3 ⟨0, 1⟩, ⟨0, 30⟩⟩]
  args := #[4]
  params := #[⟨1⟩]

/-- The same call with one node for both variables, under other numbers and without spans. -/
def sharedCall : NodeTable where
  nodes := #[⟨.ref ⟨1⟩, .origin⟩, ⟨.null, .origin⟩, ⟨.int (-1), .origin⟩,
    ⟨.branch 0 2 none, .origin⟩, ⟨.function ⟨1, 1⟩ 3, .origin⟩, ⟨.call 4 ⟨0, 1⟩, .origin⟩]
  args := #[0]
  params := #[⟨0⟩, ⟨1⟩]

theorem dump_faithful_call : ∃ tree tree', separateCall.tree? 5 = some tree ∧
    sharedCall.tree? 5 = some tree' ∧ tree ≠ tree' ∧
    separateCall.dump oneName 5 = "(call (function (x) (if x -1)) x)" ∧
    sharedCall.dump oneName 5 = "(call (function (x) (if x -1)) x)" ∧
    tree.outline oneName.lookup = tree'.outline oneName.lookup ∧
    tree.outline id = tree'.outline id := by
  have hTree : separateCall.tree? 5 = some (.call ⟨0, 30⟩
      (.function ⟨0, 26⟩ [⟨1⟩] (.branch ⟨15, 24⟩ (.ref ⟨19, 20⟩ ⟨1⟩) (.int ⟨22, 24⟩ (-1)) none))
      [.ref ⟨28, 29⟩ ⟨1⟩]) := by cbv
  have hTree' : sharedCall.tree? 5 = some (.call .origin
      (.function .origin [⟨1⟩] (.branch .origin (.ref .origin ⟨1⟩) (.int .origin (-1)) none))
      [.ref .origin ⟨1⟩]) := by cbv
  have hIdentifier : IsIdentifier (oneName.lookup ⟨1⟩) :=
    ⟨⟨'x', [], rfl, rfl, List.forall_mem_nil _⟩, fun word => by cases word <;> decide⟩
  have hDump : separateCall.dump oneName 5 = "(call (function (x) (if x -1)) x)" := by
    rw [NodeTable.dump, hTree]
    decide
  have hDump' : sharedCall.dump oneName 5 = "(call (function (x) (if x -1)) x)" := by
    rw [NodeTable.dump, hTree']
    decide
  obtain ⟨hTexts, hNames⟩ := NodeTable.dump_faithful hTree hTree'
    (by simpa [Tree.names, Tree.namesOption, Tree.namesList] using hIdentifier)
    (by simpa [Tree.names, Tree.namesOption, Tree.namesList] using hIdentifier)
    (hDump.trans hDump'.symm)
  refine ⟨_, _, hTree, hTree', fun hSame => ?_, hDump, hDump', hTexts, hNames rfl (by decide)⟩
  cases congrArg Tree.span hSame

end FeatherScript
