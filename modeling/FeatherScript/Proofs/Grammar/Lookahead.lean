import FeatherScript.Proofs.Grammar.Reading

/-!
# First tokens and tokens after

Which production applies shows in the first token of a phrase, or in the second where a name comes
first. Where a phrase ends shows in the token after it: an operand ends before a token that no
tighter level reads on from, an expression also not before the sign of an assignment.

* `starts_of_derives`: the first tokens of expressions and statements.
* `eq_of_ident_assign`: a comparison never goes on from a name with the sign of an assignment.
* `Level.Ends`, `EndsExpression`: the tokens before which a level and an expression end.
-/

namespace FeatherScript.Grammar

theorem Takes.kind_eq {kind : TokenKind} {span : Span} {p q : Place} (h : Takes kind span p q) :
    p.kind = kind := by
  rw [Place.kind, h.1]
  rfl

/-! ## First tokens -/

/-- The kinds of tokens that an operand begins with. -/
def startsOperand : TokenKind → Bool
  | .int _ | .ident _ => true
  | .keyword .kwTrue | .keyword .kwFalse | .keyword .kwNull => true
  | .keyword .kwFunction | .symbol .leftParen => true
  | _ => false

/-- The kinds of tokens that an expression begins with. -/
def startsExpression : TokenKind → Bool
  | .keyword .kwVar => true
  | kind => startsOperand kind

/-- The kinds of tokens that a statement begins with. -/
def startsStatement : TokenKind → Bool
  | .keyword .kwIf | .keyword .kwWhile | .keyword .kwPrint | .symbol .semicolon => true
  | kind => startsExpression kind

theorem startsExpression_of_startsOperand {kind : TokenKind} (h : startsOperand kind = true) :
    startsExpression kind = true := by
  unfold startsExpression
  split <;> first | rfl | exact h

theorem startsStatement_of_startsExpression {kind : TokenKind}
    (h : startsExpression kind = true) : startsStatement kind = true := by
  unfold startsStatement
  split <;> first | rfl | exact h

/-- What the first token of a phrase is known to be. -/
def Phrase.Starts : Phrase → TokenKind → Prop
  | level _ _ | application _ | primary _ => fun kind => startsOperand kind = true
  | expression _ | argumentList _ => fun kind => startsExpression kind = true
  | enclosed _ _ => fun kind => kind = .symbol .leftParen
  | statement _ => fun kind => startsStatement kind = true
  | statements trees => fun kind => trees = [] ∨ startsStatement kind = true
  | _ => fun _ => True

theorem Level.starts_operand {l : Level} {tree : Tree} {kind : TokenKind} :
    (l.operand tree).Starts kind ↔ startsOperand kind = true := by
  cases l <;> rfl

theorem starts_of_derives {rule : ElseRule} {phrase : Phrase} {p q : Place}
    (h : Derives rule phrase p q) : phrase.Starts p.kind := by
  induction h with
  | noStatements => exact .inl rfl
  | moreStatements _ _ ihTree _ => exact .inr ihTree
  | branch hToken | loop hToken | printing hToken | emptyStatement hToken | declaration hToken
  | assignment hToken | int hToken | true hToken | false hToken | null hToken | ref hToken
  | function hToken =>
    rw [hToken.kind_eq]
    exact rfl
  | expressionStatement _ _ ihTree _ => exact startsStatement_of_startsExpression ihTree
  | enclosed hOpen => exact hOpen.kind_eq
  | comparison _ ih => exact startsExpression_of_startsOperand ih
  | level _ _ ihLeft _ => exact Level.starts_operand.mp ihLeft
  | application _ _ ihCallee _ => exact ihCallee
  | lastArgument _ ih => exact ih
  | nextArgument _ _ _ ih _ => exact ih
  | parenthesized _ ih =>
    rw [show _ = TokenKind.symbol .leftParen from ih]
    exact rfl
  | _ => trivial

/-! ## The token after a name -/

/-- No comparison, and nothing inside of one, goes on from a first name with the sign of an
assignment; and no operations and no calls begin with it. -/
def Phrase.StopsAtAssign : Phrase → Place → Place → Prop
  | level _ _ | application _ | primary _ => fun p q =>
    ∀ name span r, Takes (.ident name) span p r → r.kind = .symbol .assign → r = q
  | operations _ _ | calls _ => fun p q => p.kind = .symbol .assign → p = q
  | _ => fun _ _ => True

theorem Level.stopsAtAssign_operand {l : Level} {tree : Tree} {p q : Place} :
    (l.operand tree).StopsAtAssign p q ↔
      ∀ name span r, Takes (.ident name) span p r → r.kind = .symbol .assign → r = q := by
  cases l <;> rfl

theorem Takes.unique {kind kind' : TokenKind} {span span' : Span} {p q q' : Place}
    (h : Takes kind span p q) (h' : Takes kind' span' p q') :
    kind = kind' ∧ span = span' ∧ q = q' := by
  obtain ⟨hToken, hRest⟩ := List.cons.inj (h.1.symm.trans h'.1)
  cases hToken
  obtain ⟨last, rest⟩ := q
  obtain ⟨last', rest'⟩ := q'
  refine ⟨rfl, rfl, ?_⟩
  cases h.2
  cases h'.2
  rw [show rest = rest' from hRest]

theorem stopsAtAssign_of_derives {rule : ElseRule} {phrase : Phrase} {p q : Place}
    (h : Derives rule phrase p q) : phrase.StopsAtAssign p q := by
  induction h with
  | level _ _ ihLeft ihOps =>
    intro name span r hName hAssign
    have hMiddle := Level.stopsAtAssign_operand.mp ihLeft name span r hName hAssign
    rw [hMiddle] at hAssign ⊢
    exact ihOps hAssign
  | application _ _ ihCallee ihSuffixes =>
    intro name span r hName hAssign
    have hMiddle := ihCallee name span r hName hAssign
    rw [hMiddle] at hAssign ⊢
    exact ihSuffixes hAssign
  | noOperations | noCalls => exact fun _ => rfl
  | @moreOperations l op _ _ _ _ _ _ _ _ hSign =>
    intro hAssign
    rw [hSign.kind_eq] at hAssign
    cases op <;> cases hAssign
  | moreCalls hOpen =>
    intro hAssign
    rw [hOpen.kind_eq] at hAssign
    cases hAssign
  | int hToken | true hToken | false hToken | null hToken | function hToken =>
    intro name span r hName _
    cases (hToken.unique hName).1
  | ref hToken => exact fun _ _ _ hName _ => (hToken.unique hName).2.2.symm
  | parenthesized hTree =>
    intro name span r hName _
    have hOpen : _ = TokenKind.symbol .leftParen := starts_of_derives hTree
    cases hName.kind_eq.symm.trans hOpen
  | _ => trivial

/-! ## Tokens after -/

/-- What a level reads as an operator. -/
def Level.operatorOf? : Level → TokenKind → Option Operator
  | multiplication => multiplicativeOf?
  | addition => additiveOf?
  | comparison => comparisonOf?

/-- A level reads the symbols of its own operators and no others. -/
theorem Level.operatorOf?_eq_some_iff {l : Level} {kind : TokenKind} {op : Operator} :
    l.operatorOf? kind = some op ↔ kind = .symbol op.symbol ∧ op.level = l := by
  constructor
  · intro h
    cases l <;> simp only [operatorOf?, multiplicativeOf?, additiveOf?, comparisonOf?] at h <;>
      split at h <;> cases h <;> exact ⟨rfl, rfl⟩
  · rintro ⟨rfl, rfl⟩
    cases op <;> rfl

/-- The operands of a level end before a token of this kind. -/
def Level.OperandEnds : Level → TokenKind → Prop
  | multiplication, kind => kind ≠ .symbol .leftParen
  | addition, kind => kind ≠ .symbol .leftParen ∧ multiplicativeOf? kind = none
  | comparison, kind =>
    (kind ≠ .symbol .leftParen ∧ multiplicativeOf? kind = none) ∧ additiveOf? kind = none

/-- A level ends before a token of this kind. -/
def Level.Ends (l : Level) (kind : TokenKind) : Prop :=
  l.OperandEnds kind ∧ l.operatorOf? kind = none

/-- An operand ends before an operator of its level. -/
theorem Level.operandEnds_symbol {l : Level} {op : Operator} (hLevel : op.level = l) :
    l.OperandEnds (.symbol op.symbol) := by
  subst hLevel
  cases op <;> simp [OperandEnds, Operator.level, Operator.symbol, multiplicativeOf?, additiveOf?]

/-- An expression ends before a token of this kind. -/
def EndsExpression (kind : TokenKind) : Prop :=
  Level.comparison.Ends kind ∧ kind ≠ .symbol .assign

theorem endsExpression_close {sign : Symbol}
    (hSign : sign ∈ [Symbol.rightParen, .comma, .semicolon, .rightBrace]) :
    EndsExpression (.symbol sign) := by
  simp only [List.mem_cons, List.not_mem_nil, or_false] at hSign
  rcases hSign with rfl | rfl | rfl | rfl <;>
    exact ⟨⟨⟨⟨nofun, rfl⟩, rfl⟩, rfl⟩, nofun⟩

theorem endsExpression_endOfFile : EndsExpression .endOfFile :=
  ⟨⟨⟨⟨nofun, rfl⟩, rfl⟩, rfl⟩, nofun⟩

end FeatherScript.Grammar
