import FeatherScript.Proofs.Token.RoundTrip
import FeatherScript.Tree.SExpr

/-!
# Outlines

The outline of a tree is what is left without the spans, with names in whatever form they are
compared. A tree that is written as a symbolic expression still has its outline: every construct
but a leaf begins with a head of its own, and a leaf is an integer, a reserved word or a name.

* `Outline`, `Tree.outline`: outlines, and the outline of a tree.
* `Outline.read?`: the outline that a symbolic expression is written for.
* `read?_sexpr`: reading the expression of a tree finds its outline, if its names are identifiers.
-/

namespace FeatherScript

open Text

/-- A program as a tree without spans. -/
inductive Outline (α : Type)
  | int (value : Int64)
  | bool (value : Bool)
  | null
  | ref (name : α)
  | print (argument : Outline α)
  | binary (op : Operator) (left right : Outline α)
  | branch (condition consequent : Outline α) (alternative : Option (Outline α))
  | loop (condition body : Outline α)
  | sequence (first second : Outline α)
  | declare (name : α) (value : Outline α)
  | assign (name : α) (value : Outline α)
  | function (params : List α) (body : Outline α)
  | call (callee : Outline α) (args : List (Outline α))

variable {α : Type}

namespace Tree

mutual

/-- A tree without spans, given what stands for a name. -/
def outline (f : Name → α) : Tree → Outline α
  | .int _ value => .int value
  | .bool _ value => .bool value
  | .null _ => .null
  | .ref _ name => .ref (f name)
  | .print _ argument => .print (argument.outline f)
  | .binary _ op left right => .binary op (left.outline f) (right.outline f)
  | .branch _ condition consequent alternative =>
    .branch (condition.outline f) (consequent.outline f) (outlineOption f alternative)
  | .loop _ condition body => .loop (condition.outline f) (body.outline f)
  | .sequence _ first second => .sequence (first.outline f) (second.outline f)
  | .declare _ name value => .declare (f name) (value.outline f)
  | .assign _ name value => .assign (f name) (value.outline f)
  | .function _ params body => .function (params.map f) (body.outline f)
  | .call _ callee args => .call (callee.outline f) (outlineList f args)

def outlineOption (f : Name → α) : Option Tree → Option (Outline α)
  | none => none
  | some t => some (t.outline f)

def outlineList (f : Name → α) : List Tree → List (Outline α)
  | [] => []
  | t :: ts => t.outline f :: outlineList f ts

end

mutual

/-- The names in a tree, those of parameters and of declared and assigned variables included. -/
def names : Tree → List Name
  | .int .. | .bool .. | .null _ => []
  | .ref _ name => [name]
  | .print _ argument => argument.names
  | .binary _ _ left right => left.names ++ right.names
  | .branch _ condition consequent alternative =>
    condition.names ++ (consequent.names ++ namesOption alternative)
  | .loop _ condition body => condition.names ++ body.names
  | .sequence _ first second => first.names ++ second.names
  | .declare _ name value => name :: value.names
  | .assign _ name value => name :: value.names
  | .function _ params body => params ++ body.names
  | .call _ callee args => callee.names ++ namesList args

def namesOption : Option Tree → List Name
  | none => []
  | some t => t.names

def namesList : List Tree → List Name
  | [] => []
  | t :: ts => t.names ++ namesList ts

end

end Tree

/-! ## Heads -/

/-- What the expression of a construct begins with. -/
inductive Head
  | print
  | binary (op : Operator)
  | branch
  | loop
  | sequence
  | declare
  | assign
  | function
  | call
deriving DecidableEq

namespace Head

def spelling : Head → String
  | print => "print"
  | binary op => op.sign
  | branch => "if"
  | loop => "while"
  | sequence => "seq"
  | declare => "var"
  | assign => "="
  | function => "function"
  | call => "call"

def all : List Head :=
  [print, branch, loop, sequence, declare, assign, function, call] ++ Operator.all.map binary

def ofSpelling? (text : String) : Option Head := all.find? (·.spelling = text)

theorem ofSpelling?_spelling (head : Head) : ofSpelling? head.spelling = some head := by
  cases head with
  | binary op => cases op <;> decide
  | _ => decide

end Head

/-! ## Leaves -/

/-- The integer of a decimal form, which has a minus sign if it is negative. -/
def Integer.read? (text : String) : Option Int64 :=
  match text.toList with
  | '-' :: digits => ofInt? (-(decimalValue digits : Int))
  | digits => if digits.all Char.isDigit then ofInt? (decimalValue digits) else none

/-- A text that names a variable: a word that is not reserved. -/
structure IsIdentifier (text : String) : Prop where
  word : IsWord text.toList
  free : ∀ word : Keyword, text.toList ≠ word.spelling.toList

/-- The leaf that an atom is written for, given what a text names. -/
def Outline.ofAtom (nameOf : String → α) (text : String) : Outline α :=
  match Integer.read? text with
  | some value => .int value
  | none =>
    if text = "true" then .bool true
    else if text = "false" then .bool false
    else if text = "null" then .null
    else .ref (nameOf text)

/-- The decimal form of an integer is a digit string of its value, after a minus sign if it is
negative. -/
theorem Integer.exists_digits (value : Int64) : ∃ digits, IsNumeral digits ∧
    ((text value).toList = digits ∧ (decimalValue digits : Int) = value.toInt ∨
      (text value).toList = '-' :: digits ∧ -(decimalValue digits : Int) = value.toInt) := by
  by_cases hSign : 0 ≤ value.toInt
  · obtain ⟨hNumeral, hValue⟩ := isNumeral_text hSign
    exact ⟨_, hNumeral, .inl ⟨rfl, hValue⟩⟩
  · have hText : (text value).toList = '-' :: Nat.toDigits 10 (-value.toInt).toNat := by
      rw [text, Int.toString_eq_repr, Int.repr_eq_if, if_neg hSign, String.toList_append,
        Nat.toList_repr]
      rfl
    have hValue : decimalValue (Nat.toDigits 10 (-value.toInt).toNat) = (-value.toInt).toNat :=
      Nat.ofDigitChars_toDigits (by decide) (by decide)
    refine ⟨_, ⟨Nat.toDigits_ne_nil, fun c hMem => ?_⟩, .inr ⟨hText, by omega⟩⟩
    exact Nat.isDigit_of_mem_toDigits (by decide) (by decide) hMem

/-- The decimal form of an integer reads back as the integer. -/
theorem Integer.read?_text (value : Int64) : read? (text value) = some value := by
  obtain ⟨digits, ⟨hNonempty, hDigits⟩, ⟨hText, hValue⟩ | ⟨hText, hValue⟩⟩ := exists_digits value
  · have hAll : digits.all Char.isDigit = true := List.all_eq_true.mpr hDigits
    rw [read?, hText]
    split
    · next digits =>
      cases hDigits '-' List.mem_cons_self
    · rw [if_pos hAll, ofInt?_eq_some_iff.mpr hValue]
  · rw [read?, hText]
    exact ofInt?_eq_some_iff.mpr hValue

/-- A word is no decimal form. -/
theorem Integer.read?_of_isWord {text : String} (h : IsWord text.toList) : read? text = none := by
  obtain ⟨first, more, hText, hStart, hMore⟩ := h
  have hDigit : first.isDigit = false := by
    refine Bool.eq_false_iff.mpr fun hDigit => ?_
    exact (classes_of_isDigit more hDigit).1 ⟨first, more, rfl, hStart, hMore⟩
  simp only [read?, hText]
  split
  · next hMinus =>
    cases hMinus
    cases hStart
  · simp [hDigit]

/-! ## Reading an expression -/

/-- The name that a member is written for. -/
def Outline.readName? (nameOf : String → α) : SExpr → Option α
  | .atom text => some (nameOf text)
  | .list _ => none

mutual

/-- The outline that an expression is written for. -/
def Outline.read? (nameOf : String → α) : SExpr → Option (Outline α)
  | .atom text => some (ofAtom nameOf text)
  | .list (.atom head :: members) =>
    match Head.ofSpelling? head, members with
    | some .print, [argument] => return .print (← read? nameOf argument)
    | some (.binary op), [left, right] =>
      return .binary op (← read? nameOf left) (← read? nameOf right)
    | some .branch, [condition, consequent] =>
      return .branch (← read? nameOf condition) (← read? nameOf consequent) none
    | some .branch, [condition, consequent, alternative] =>
      return .branch (← read? nameOf condition) (← read? nameOf consequent)
        (some (← read? nameOf alternative))
    | some .loop, [condition, body] =>
      return .loop (← read? nameOf condition) (← read? nameOf body)
    | some .sequence, [first, second] =>
      return .sequence (← read? nameOf first) (← read? nameOf second)
    | some .declare, [name, value] =>
      return .declare (← readName? nameOf name) (← read? nameOf value)
    | some .assign, [name, value] =>
      return .assign (← readName? nameOf name) (← read? nameOf value)
    | some .function, [.list params, body] =>
      return .function (← params.mapM (readName? nameOf)) (← read? nameOf body)
    | some .call, callee :: args =>
      return .call (← read? nameOf callee) (← readList? nameOf args)
    | _, _ => none
  | .list _ => none

def Outline.readList? (nameOf : String → α) : List SExpr → Option (List (Outline α))
  | [] => some []
  | x :: xs => return (← read? nameOf x) :: (← readList? nameOf xs)

end

section

variable {showName : Name → String} {nameOf : String → α} {f : Name → α}

/-- Names are read back: each is written as an identifier, which names what stands for it. -/
def ReadsBack (showName : Name → String) (nameOf : String → α) (f : Name → α)
    (names : List Name) : Prop :=
  ∀ n ∈ names, IsIdentifier (showName n) ∧ nameOf (showName n) = f n

/-- An identifier is the atom of the name it names. -/
theorem Outline.ofAtom_of_isIdentifier {text : String} (h : IsIdentifier text) :
    ofAtom nameOf text = .ref (nameOf text) := by
  have hTrue : text ≠ "true" := fun hText => h.free .kwTrue (hText ▸ rfl)
  have hFalse : text ≠ "false" := fun hText => h.free .kwFalse (hText ▸ rfl)
  have hNull : text ≠ "null" := fun hText => h.free .kwNull (hText ▸ rfl)
  rw [ofAtom, Integer.read?_of_isWord h.word]
  simp only [if_neg hTrue, if_neg hFalse, if_neg hNull]

theorem mapM_readName? {params : List Name} (h : ReadsBack showName nameOf f params) :
    (params.map fun p => SExpr.atom (showName p)).mapM (Outline.readName? nameOf) =
      some (params.map f) := by
  induction params with
  | nil => rfl
  | cons p ps ih =>
    obtain ⟨⟨-, hSame⟩, hRest⟩ := List.forall_mem_cons.mp h
    simp [Outline.readName?, ih hRest, hSame]

mutual

/-- Reading the expression of a tree finds the outline of the tree. -/
theorem read?_sexpr : ∀ tree : Tree, ReadsBack showName nameOf f tree.names →
    Outline.read? nameOf (tree.sexpr showName) = some (tree.outline f)
  | .int _ value, _ => by
    simp [Tree.sexpr, Tree.outline, Outline.read?, Outline.ofAtom, Integer.read?_text]
  | .bool _ value, _ => by
    cases value <;> rfl
  | .null _, _ => rfl
  | .ref _ name, h => by
    obtain ⟨hIdentifier, hSame⟩ := h name List.mem_cons_self
    simp [Tree.sexpr, Tree.outline, Outline.read?, Outline.ofAtom_of_isIdentifier hIdentifier,
      hSame]
  | .print _ argument, h => by
    have hHead : Head.ofSpelling? "print" = _ := Head.ofSpelling?_spelling .print
    simp [Tree.sexpr, Tree.outline, Outline.read?, hHead, read?_sexpr argument h]
  | .binary _ op left right, h => by
    obtain ⟨hLeft, hRight⟩ := List.forall_mem_append.mp h
    have hHead : Head.ofSpelling? op.sign = _ := Head.ofSpelling?_spelling (.binary op)
    simp [Tree.sexpr, Tree.outline, Outline.read?, hHead, read?_sexpr left hLeft,
      read?_sexpr right hRight]
  | .branch _ condition consequent alternative, h => by
    obtain ⟨hCondition, h⟩ := List.forall_mem_append.mp h
    obtain ⟨hConsequent, hAlternative⟩ := List.forall_mem_append.mp h
    have hHead : Head.ofSpelling? "if" = _ := Head.ofSpelling?_spelling .branch
    -- an expression without an alternative is one member shorter
    cases alternative with
    | none =>
      simp [Tree.sexpr, Tree.sexprOption, Tree.outline, Tree.outlineOption, Outline.read?, hHead,
        read?_sexpr condition hCondition, read?_sexpr consequent hConsequent]
    | some alternative =>
      simp [Tree.sexpr, Tree.sexprOption, Tree.outline, Tree.outlineOption, Outline.read?, hHead,
        read?_sexpr condition hCondition, read?_sexpr consequent hConsequent,
        read?_sexpr alternative hAlternative]
  | .loop _ condition body, h => by
    obtain ⟨hCondition, hBody⟩ := List.forall_mem_append.mp h
    have hHead : Head.ofSpelling? "while" = _ := Head.ofSpelling?_spelling .loop
    simp [Tree.sexpr, Tree.outline, Outline.read?, hHead, read?_sexpr condition hCondition,
      read?_sexpr body hBody]
  | .sequence _ first second, h => by
    obtain ⟨hFirst, hSecond⟩ := List.forall_mem_append.mp h
    have hHead : Head.ofSpelling? "seq" = _ := Head.ofSpelling?_spelling .sequence
    simp [Tree.sexpr, Tree.outline, Outline.read?, hHead, read?_sexpr first hFirst,
      read?_sexpr second hSecond]
  | .declare _ name value, h => by
    obtain ⟨⟨-, hSame⟩, hValue⟩ := List.forall_mem_cons.mp h
    have hHead : Head.ofSpelling? "var" = _ := Head.ofSpelling?_spelling .declare
    simp [Tree.sexpr, Tree.outline, Outline.read?, hHead, Outline.readName?, hSame,
      read?_sexpr value hValue]
  | .assign _ name value, h => by
    obtain ⟨⟨-, hSame⟩, hValue⟩ := List.forall_mem_cons.mp h
    have hHead : Head.ofSpelling? "=" = _ := Head.ofSpelling?_spelling .assign
    simp [Tree.sexpr, Tree.outline, Outline.read?, hHead, Outline.readName?, hSame,
      read?_sexpr value hValue]
  | .function _ params body, h => by
    obtain ⟨hParams, hBody⟩ := List.forall_mem_append.mp h
    have hHead : Head.ofSpelling? "function" = _ := Head.ofSpelling?_spelling .function
    simp [Tree.sexpr, Tree.outline, Outline.read?, hHead, mapM_readName? hParams,
      read?_sexpr body hBody]
  | .call _ callee args, h => by
    obtain ⟨hCallee, hArgs⟩ := List.forall_mem_append.mp h
    have hHead : Head.ofSpelling? "call" = _ := Head.ofSpelling?_spelling .call
    simp [Tree.sexpr, Tree.outline, Outline.read?, hHead, read?_sexpr callee hCallee,
      readList?_sexprList args hArgs]

theorem readList?_sexprList : ∀ ts : List Tree, ReadsBack showName nameOf f (Tree.namesList ts) →
    Outline.readList? nameOf (Tree.sexprList showName ts) = some (Tree.outlineList f ts)
  | [], _ => rfl
  | t :: ts, h => by
    obtain ⟨hFirst, hRest⟩ := List.forall_mem_append.mp h
    simp [Tree.sexprList, Tree.outlineList, Outline.readList?, read?_sexpr t hFirst,
      readList?_sexprList ts hRest]

end

end

end FeatherScript
