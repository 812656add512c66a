import FeatherScript.Grammar.Block

/-!
# Expressions and statements

From the inside out: a primary is a literal, a name, an expression in parentheses or a function; a
postfix expression is a primary with any number of argument lists; then follow the three levels of
binary operators, each of which associates to the left; a declaration or an assignment takes
everything to its right.

A statement is a branch, a loop, a printing, an empty statement or an expression. Printings and
expressions end with a semicolon, which may be left out before a closing brace and at the end of the
source. A branch takes an alternative whenever one follows, so an alternative belongs to the nearest
branch that is still open.

* `binaryLevel` reads one level of operators from the level below it.
* `expressionWith` and `statementWith` read an expression and a statement, given how shorter ones
  are read.
-/

namespace FeatherScript.Grammar

variable {bound : List Token}

/-! ## Functions and primaries -/

/-- Reads parameter names up to the one without a comma after it. -/
def paramNames (s : State) : Reply true s (List Name) :=
  s.expectName.andThen fun name t _ =>
  t.eatOr .comma (.done [name]) fun _ u _ =>
  (paramNames u).andThen fun more _ _ =>
  .done (name :: more)
termination_by s.left

/-- Reads the parameter names of a function, which may have none. -/
def params (s : State) : Reply false s (List Name) :=
  if s.kind = .symbol .rightParen then .done [] else (paramNames s).relax

def function (below : Below bound) (s : State) (hBound : s.left ≤ bound.length) :
    Reply true s NodeId :=
  (s.advance .expression).andThen fun start s₁ _ =>
  s₁.optionalName.bind fun name s₂ _ =>
  (s₂.expect .leftParen .openParen).andThen fun _ s₃ _ =>
  (params s₃).bind fun names s₄ _ =>
  (s₄.expect .rightParen .closeParenOrComma).andThen fun _ s₅ _ =>
  (block below s₅ (by omega)).andThen fun body s₆ _ =>
  s₆.build (·.addFunction name names body (start.merge s₆.last))
    fun t => t.grows_addFunction name names body _

/-- Stores the node of a literal or a name and consumes its token. -/
def leaf (s : State) (form : Form) : Reply true s NodeId :=
  (s.advance .expression).andThen fun span s₁ _ => s₁.addNode form span

/-- Reads a primary expression. -/
def primary (below : Below bound) (s : State) (hBound : s.left ≤ bound.length) :
    Reply true s NodeId :=
  match s.kind with
  | .keyword .kwTrue => leaf s (.bool true)
  | .keyword .kwFalse => leaf s (.bool false)
  | .keyword .kwNull => leaf s .null
  | .keyword .kwFunction => function below s hBound
  | .symbol .leftParen =>
    (s.advance .expression).andThen fun _ s₁ _ =>
    (below.expression s₁ (by omega)).andThen fun inner s₂ _ =>
    (s₂.expect .rightParen .closeParen).andThen fun _ _ _ =>
    .done inner
  | .ident name => leaf s (.ref name)
  | .int value => leaf s (.int value)
  | _ => .fail .expression

/-! ## Calls -/

/-- Reads arguments up to the one without a comma after it. -/
def argumentIds (below : Below bound) (s : State) (hBound : s.left < bound.length) :
    Reply true s (List NodeId) :=
  (below.expression s hBound).andThen fun id t _ =>
  t.eatOr .comma (.done [id]) fun _ u _ =>
  (argumentIds below u (by omega)).andThen fun more _ _ =>
  .done (id :: more)
termination_by s.left

/-- Reads the arguments of a call, which may have none. -/
def arguments (below : Below bound) (s : State) (hBound : s.left < bound.length) :
    Reply false s (List NodeId) :=
  if s.kind = .symbol .rightParen then .done [] else (argumentIds below s hBound).relax

/-- Reads the argument lists that follow a callee. -/
def callSuffixes (below : Below bound) (callee : NodeId) (s : State)
    (hBound : s.left ≤ bound.length) : Reply false s NodeId :=
  s.eatOr .leftParen (.done callee) fun _ s₁ _ =>
  (arguments below s₁ (by omega)).bind fun args s₂ _ =>
  (s₂.expect .rightParen .closeParenOrComma).andThen fun close s₃ _ =>
  (s₃.build (·.addCall callee args close)
    fun t => t.grows_addCall callee args close).bind fun call s₄ _ =>
  callSuffixes below call s₄ (by omega)
termination_by s.left

def postfixExpr (below : Below bound) (s : State) (hBound : s.left ≤ bound.length) :
    Reply true s NodeId :=
  (primary below s hBound).andThen fun callee s₁ _ =>
  callSuffixes below callee s₁ (by omega)

/-! ## Binary operators -/

/-- The comparison that a token stands for. -/
def comparisonOf? : TokenKind → Option Operator
  | .symbol .equal => some .equal
  | .symbol .less => some .less
  | .symbol .lessEqual => some .lessEqual
  | .symbol .greater => some .greater
  | .symbol .greaterEqual => some .greaterEqual
  | _ => none

/-- The additive operator that a token stands for. -/
def additiveOf? : TokenKind → Option Operator
  | .symbol .plus => some .add
  | .symbol .minus => some .sub
  | _ => none

/-- The multiplicative operator that a token stands for. -/
def multiplicativeOf? : TokenKind → Option Operator
  | .symbol .star => some .mul
  | .symbol .slash => some .div
  | .symbol .percent => some .mod
  | _ => none

/-- Reads operators of one level with their right operands, folding them to the left. -/
def operations (read : TokenKind → Option Operator)
    (operand : (s : State) → s.left ≤ bound.length → Reply true s NodeId)
    (left : NodeId) (s : State) (hBound : s.left ≤ bound.length) : Reply false s NodeId :=
  s.takeOr read (.done left) fun op _ s₁ _ =>
  (operand s₁ (by omega)).andThen fun right s₂ _ =>
  (s₂.build (·.addBinary op left right)
    fun t => t.grows_addBinary op left right).bind fun whole s₃ _ =>
  operations read operand whole s₃ (by omega)
termination_by s.left

/-- Reads one level of binary operators. -/
def binaryLevel (read : TokenKind → Option Operator)
    (operand : (s : State) → s.left ≤ bound.length → Reply true s NodeId)
    (s : State) (hBound : s.left ≤ bound.length) : Reply true s NodeId :=
  (operand s hBound).andThen fun left s₁ _ =>
  operations read operand left s₁ (by omega)

/-- Reads a product of postfix expressions. -/
def multiplicative (below : Below bound) (s : State) (hBound : s.left ≤ bound.length) :
    Reply true s NodeId :=
  binaryLevel multiplicativeOf? (postfixExpr below) s hBound

/-- Reads a sum of products. -/
def additive (below : Below bound) (s : State) (hBound : s.left ≤ bound.length) :
    Reply true s NodeId :=
  binaryLevel additiveOf? (multiplicative below) s hBound

/-- Reads a comparison of sums. -/
def comparison (below : Below bound) (s : State) (hBound : s.left ≤ bound.length) :
    Reply true s NodeId :=
  binaryLevel comparisonOf? (additive below) s hBound

/-! ## Declarations and assignments -/

/-- Reads a declaration from its keyword on. -/
def declaration (below : Below bound) (s : State) (hBound : s.left ≤ bound.length) :
    Reply true s NodeId :=
  (s.advance .expression).andThen fun start s₁ _ =>
  s₁.expectName.andThen fun name s₂ _ =>
  (s₂.expect .assign .assignSign).andThen fun _ s₃ _ =>
  (below.expression s₃ (by omega)).andThen fun value s₄ _ =>
  s₄.addNode (.declare name value) (start.merge (s₄.spanOf value))

def assignment (below : Below bound) (name : Name) (s : State) (hBound : s.left ≤ bound.length) :
    Reply true s NodeId :=
  (s.advance .expression).andThen fun start s₁ _ =>
  (s₁.expect .assign .assignSign).andThen fun _ s₂ _ =>
  (below.expression s₂ (by omega)).andThen fun value s₃ _ =>
  s₃.addNode (.assign name value) (start.merge (s₃.spanOf value))

/-- Reads an expression, given how shorter ones are read. -/
def expressionWith (below : Below bound) (s : State) (hBound : s.left ≤ bound.length) :
    Reply true s NodeId :=
  match s.kind with
  | .keyword .kwVar => declaration below s hBound
  | .ident name =>
    if s.nextKind = .symbol .assign then assignment below name s hBound
    else comparison below s hBound
  | _ => comparison below s hBound

/-! ## Statements -/

/-- Consumes the end of a statement, or nothing where a block or the source ends. -/
def terminator (s : State) : Reply false s Unit :=
  s.eatOr .semicolon (if s.AtClose then .done () else .fail .terminator) fun _ _ _ => .done ()

/-- Reads an expression in parentheses; the result comes with the span of the closing one. -/
def parenthesized (below : Below bound) (s : State) (hBound : s.left ≤ bound.length) :
    Reply true s (NodeId × Span) :=
  (s.expect .leftParen .openParen).andThen fun _ s₁ _ =>
  (below.expression s₁ (by omega)).andThen fun inner s₂ _ =>
  (s₂.expect .rightParen .closeParen).andThen fun close _ _ =>
  .done (inner, close)

/-- Reads the alternative of a branch if there is one. -/
def alternative (below : Below bound) (s : State) (hBound : s.left < bound.length) :
    Reply false s (Option NodeId) :=
  s.takeOr (fun k => if k = .keyword .kwElse then some () else none) (.done none)
    fun _ _ s₁ hLess =>
  (block below s₁ (State.left_lt_trans hLess hBound)).andThen fun id _ _ =>
  .done (some id)

/-- Reads a branch from its keyword on. -/
def branch (below : Below bound) (s : State) (hBound : s.left ≤ bound.length) :
    Reply true s NodeId :=
  (s.advance .expression).andThen fun start s₁ _ =>
  (parenthesized below s₁ (by omega)).andThen fun condition s₂ _ =>
  (block below s₂ (by omega)).andThen fun consequent s₃ _ =>
  (alternative below s₃ (by omega)).bind fun other s₄ _ =>
  s₄.addNode (.branch condition.1 consequent other) (start.merge s₄.last)

def loop (below : Below bound) (s : State) (hBound : s.left ≤ bound.length) :
    Reply true s NodeId :=
  (s.advance .expression).andThen fun start s₁ _ =>
  (parenthesized below s₁ (by omega)).andThen fun condition s₂ _ =>
  (block below s₂ (by omega)).andThen fun body s₃ _ =>
  s₃.addNode (.loop condition.1 body) (start.merge s₃.last)

def printing (below : Below bound) (s : State) (hBound : s.left ≤ bound.length) :
    Reply true s NodeId :=
  (s.advance .expression).andThen fun start s₁ _ =>
  (parenthesized below s₁ (by omega)).andThen fun argument s₂ _ =>
  (terminator s₂).bind fun _ s₃ _ =>
  s₃.addNode (.print argument.1) (start.merge argument.2)

/-- Reads a statement, given how shorter ones and expressions are read. -/
def statementWith (below : Below bound) (s : State) (hBound : s.left ≤ bound.length) :
    Reply true s NodeId :=
  match s.kind with
  | .keyword .kwIf => branch below s hBound
  | .keyword .kwWhile => loop below s hBound
  | .keyword .kwPrint => printing below s hBound
  | .symbol .semicolon => leaf s .null
  | _ =>
    (expressionWith below s hBound).andThen fun id s₁ _ =>
    (terminator s₁).bind fun _ _ _ =>
    .done id

end FeatherScript.Grammar
