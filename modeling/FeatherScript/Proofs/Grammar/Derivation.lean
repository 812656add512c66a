import FeatherScript.Token.Kind
import FeatherScript.Tree.Basic

/-!
# The grammar of programs

A phrase of the grammar is a nonterminal with the tree, or the list of trees, that its words stand
for. `Derives rule phrase p q` says that the tokens from the place `p` up to the place `q` are a
word of the phrase; an optional part may be left out and a repeated one stand any number of times,
so a phrase may have several words from the same place.

The productions are the following. A quoted symbol is a token, `&` looks at a token without taking
it, and a comparison, an addition and a multiplication are the three levels of operators.

* program: statement* END
* statement: `if` `(` expression `)` block (`else` block)?, `while` `(` expression `)` block,
  `print` `(` expression `)` terminator, `;`, expression terminator
* terminator: `;`, & `}`, & END
* block: `{` statement* `}`, statement
* expression: `var` NAME `=` expression, NAME `=` expression, comparison
* comparison: addition (sign addition)*, addition: multiplication (sign multiplication)*,
  multiplication: application (sign application)*
* application: primary (`(` (expression (`,` expression)*)? `)`)*
* primary: INT, `true`, `false`, `null`, NAME, `(` expression `)`,
  `function` NAME? `(` (NAME (`,` NAME)*)? `)` block

The trees follow the productions: operators and calls lean to the left, declarations and assignments
to the right, several statements are a chain of sequences that leans to the left, an empty run of
statements is null, and a function with a name is the declaration of that name.

As it stands the grammar lets an `else` belong to any branch that is still open. The rule `nearest`
leaves a branch without alternative only where no `else` follows, so that every `else` belongs to
the nearest open branch; the rule `free` adds nothing to the productions.
-/

namespace FeatherScript

/-! ## Trees of repeated parts -/

namespace Tree

/-- Operations on a first operand, the earlier ones inside the later ones. -/
def operations (left : Tree) (ops : List (Operator × Tree)) : Tree :=
  ops.foldl (fun left op => .binary (left.span.merge op.2.span) op.1 left op.2) left

/-- Calls with several argument lists, each list with the span of its closing parenthesis. -/
def calls (callee : Tree) (suffixes : List (List Tree × Span)) : Tree :=
  suffixes.foldl (fun callee args => .call (callee.span.merge args.2) callee args.1) callee

/-- Statements after a first one, the earlier ones inside the later ones. -/
def chain (first : Tree) (more : List Tree) : Tree :=
  more.foldl (fun first second => .sequence (first.span.merge second.span) first second) first

/-- A run of statements; the span is that of an empty run. -/
def run (emptySpan : Span) : List Tree → Tree
  | [] => .null emptySpan
  | first :: more => first.chain more

/-- A function, declared under its name if it has one. -/
def named (name : Option Name) (span : Span) (params : List Name) (body : Tree) : Tree :=
  match name with
  | some name => .declare span name (.function span params body)
  | none => .function span params body

end Tree

namespace Grammar

/-! ## Operators -/

/-- The three levels of binary operators, each an operand of the next. -/
inductive Level
  | multiplication
  | addition
  | comparison

end Grammar

namespace Operator

def level : Operator → Grammar.Level
  | mul | div | mod => .multiplication
  | add | sub => .addition
  | greater | greaterEqual | less | lessEqual | equal => .comparison

def symbol : Operator → Symbol
  | add => .plus
  | sub => .minus
  | mul => .star
  | div => .slash
  | mod => .percent
  | greater => .greater
  | greaterEqual => .greaterEqual
  | less => .less
  | lessEqual => .lessEqual
  | equal => .equal

/-- The symbol of an operator is written like its sign. -/
theorem spelling_symbol (op : Operator) : op.symbol.spelling = op.sign := by
  cases op <;> rfl

end Operator

namespace Grammar

/-! ## Places -/

/-- A place between two tokens: the span of the token before it and the tokens after it. -/
structure Place where
  last : Span
  rest : List Token

/-- The kind of the token after a place. -/
def Place.kind (p : Place) : TokenKind := (p.rest.head?.getD ⟨.endOfFile, .origin⟩).kind

/-- One token leads from a place to the next. -/
def Takes (kind : TokenKind) (span : Span) (p q : Place) : Prop :=
  p.rest = ⟨kind, span⟩ :: q.rest ∧ q.last = span

/-! ## Phrases and productions -/

/-- The nonterminals of the grammar, each with what its words stand for. -/
inductive Phrase
  | program (tree : Tree)
  | statements (trees : List Tree)
  | statement (tree : Tree)
  | terminator
  | block (tree : Tree)
  | alternative (tree : Option Tree)
  | enclosed (tree : Tree) (close : Span)
  | expression (tree : Tree)
  | level (l : Level) (tree : Tree)
  | operations (l : Level) (ops : List (Operator × Tree))
  | application (tree : Tree)
  | calls (suffixes : List (List Tree × Span))
  | arguments (trees : List Tree)
  | argumentList (trees : List Tree)
  | primary (tree : Tree)
  | functionName (name : Option Name)
  | params (names : List Name)
  | paramList (names : List Name)

def Level.operand : Level → Tree → Phrase
  | multiplication => .application
  | addition => .level .multiplication
  | comparison => .level .addition

/-- Which branch an alternative belongs to: any open one, or the nearest. -/
inductive ElseRule
  | free
  | nearest

/-- The tokens from one place up to another are a word of a phrase. -/
inductive Derives (rule : ElseRule) : Phrase → Place → Place → Prop
  | program {trees span p q r} (hTrees : Derives rule (.statements trees) p q)
      (hEnd : Takes .endOfFile span q r) : Derives rule (.program (Tree.run .origin trees)) p r
  | noStatements {p} : Derives rule (.statements []) p p
  | moreStatements {tree trees p q r} (hTree : Derives rule (.statement tree) p q)
      (hTrees : Derives rule (.statements trees) q r) :
      Derives rule (.statements (tree :: trees)) p r
  | branch {start condition close consequent other p₀ p₁ p₂ p₃ p₄}
      (hIf : Takes (.keyword .kwIf) start p₀ p₁)
      (hCondition : Derives rule (.enclosed condition close) p₁ p₂)
      (hConsequent : Derives rule (.block consequent) p₂ p₃)
      (hOther : Derives rule (.alternative other) p₃ p₄) :
      Derives rule (.statement (.branch (start.merge p₄.last) condition consequent other)) p₀ p₄
  | loop {start condition close body p₀ p₁ p₂ p₃} (hWhile : Takes (.keyword .kwWhile) start p₀ p₁)
      (hCondition : Derives rule (.enclosed condition close) p₁ p₂)
      (hBody : Derives rule (.block body) p₂ p₃) :
      Derives rule (.statement (.loop (start.merge p₃.last) condition body)) p₀ p₃
  | printing {start argument close p₀ p₁ p₂ p₃} (hPrint : Takes (.keyword .kwPrint) start p₀ p₁)
      (hArgument : Derives rule (.enclosed argument close) p₁ p₂)
      (hEnd : Derives rule .terminator p₂ p₃) :
      Derives rule (.statement (.print (start.merge close) argument)) p₀ p₃
  | emptyStatement {span p q} (hSemicolon : Takes (.symbol .semicolon) span p q) :
      Derives rule (.statement (.null span)) p q
  | expressionStatement {tree p q r} (hTree : Derives rule (.expression tree) p q)
      (hEnd : Derives rule .terminator q r) : Derives rule (.statement tree) p r
  | semicolon {span p q} (hSemicolon : Takes (.symbol .semicolon) span p q) :
      Derives rule .terminator p q
  | beforeClose {p} (hClose : p.kind = .symbol .rightBrace ∨ p.kind = .endOfFile) :
      Derives rule .terminator p p
  | braces {opening closing trees p₀ p₁ p₂ p₃} (hOpen : Takes (.symbol .leftBrace) opening p₀ p₁)
      (hTrees : Derives rule (.statements trees) p₁ p₂)
      (hClose : Takes (.symbol .rightBrace) closing p₂ p₃) :
      Derives rule (.block (Tree.run (opening.merge closing) trees)) p₀ p₃
  | single {tree p q} (hTree : Derives rule (.statement tree) p q) : Derives rule (.block tree) p q
  | noAlternative {p} (hElse : rule = .nearest → p.kind ≠ .keyword .kwElse) :
      Derives rule (.alternative none) p p
  | alternative {tree span p q r} (hElse : Takes (.keyword .kwElse) span p q)
      (hTree : Derives rule (.block tree) q r) : Derives rule (.alternative (some tree)) p r
  | enclosed {opening tree close p₀ p₁ p₂ p₃} (hOpen : Takes (.symbol .leftParen) opening p₀ p₁)
      (hTree : Derives rule (.expression tree) p₁ p₂)
      (hClose : Takes (.symbol .rightParen) close p₂ p₃) :
      Derives rule (.enclosed tree close) p₀ p₃
  | declaration {start name nameSpan sign value p₀ p₁ p₂ p₃ p₄}
      (hVar : Takes (.keyword .kwVar) start p₀ p₁) (hName : Takes (.ident name) nameSpan p₁ p₂)
      (hSign : Takes (.symbol .assign) sign p₂ p₃)
      (hValue : Derives rule (.expression value) p₃ p₄) :
      Derives rule (.expression (.declare (start.merge value.span) name value)) p₀ p₄
  | assignment {start name sign value p₀ p₁ p₂ p₃} (hName : Takes (.ident name) start p₀ p₁)
      (hSign : Takes (.symbol .assign) sign p₁ p₂)
      (hValue : Derives rule (.expression value) p₂ p₃) :
      Derives rule (.expression (.assign (start.merge value.span) name value)) p₀ p₃
  | comparison {tree p q} (hTree : Derives rule (.level .comparison tree) p q) :
      Derives rule (.expression tree) p q
  | level {l left ops p q r} (hLeft : Derives rule (Level.operand l left) p q)
      (hOps : Derives rule (.operations l ops) q r) :
      Derives rule (.level l (left.operations ops)) p r
  | noOperations {l p} : Derives rule (.operations l []) p p
  | moreOperations {l op sign right ops p₀ p₁ p₂ p₃} (hLevel : op.level = l)
      (hSign : Takes (.symbol op.symbol) sign p₀ p₁)
      (hRight : Derives rule (Level.operand l right) p₁ p₂)
      (hOps : Derives rule (.operations l ops) p₂ p₃) :
      Derives rule (.operations l ((op, right) :: ops)) p₀ p₃
  | application {callee suffixes p q r} (hCallee : Derives rule (.primary callee) p q)
      (hSuffixes : Derives rule (.calls suffixes) q r) :
      Derives rule (.application (callee.calls suffixes)) p r
  | noCalls {p} : Derives rule (.calls []) p p
  | moreCalls {opening args close suffixes p₀ p₁ p₂ p₃ p₄}
      (hOpen : Takes (.symbol .leftParen) opening p₀ p₁)
      (hArgs : Derives rule (.arguments args) p₁ p₂)
      (hClose : Takes (.symbol .rightParen) close p₂ p₃)
      (hSuffixes : Derives rule (.calls suffixes) p₃ p₄) :
      Derives rule (.calls ((args, close) :: suffixes)) p₀ p₄
  | noArguments {p} : Derives rule (.arguments []) p p
  | someArguments {trees p q} (hTrees : Derives rule (.argumentList trees) p q) :
      Derives rule (.arguments trees) p q
  | lastArgument {tree p q} (hTree : Derives rule (.expression tree) p q) :
      Derives rule (.argumentList [tree]) p q
  | nextArgument {tree comma trees p₀ p₁ p₂ p₃} (hTree : Derives rule (.expression tree) p₀ p₁)
      (hComma : Takes (.symbol .comma) comma p₁ p₂)
      (hTrees : Derives rule (.argumentList trees) p₂ p₃) :
      Derives rule (.argumentList (tree :: trees)) p₀ p₃
  | int {value span p q} (hToken : Takes (.int value) span p q) :
      Derives rule (.primary (.int span value)) p q
  | true {span p q} (hToken : Takes (.keyword .kwTrue) span p q) :
      Derives rule (.primary (.bool span true)) p q
  | false {span p q} (hToken : Takes (.keyword .kwFalse) span p q) :
      Derives rule (.primary (.bool span false)) p q
  | null {span p q} (hToken : Takes (.keyword .kwNull) span p q) :
      Derives rule (.primary (.null span)) p q
  | ref {name span p q} (hToken : Takes (.ident name) span p q) :
      Derives rule (.primary (.ref span name)) p q
  | parenthesized {tree close p q} (hTree : Derives rule (.enclosed tree close) p q) :
      Derives rule (.primary tree) p q
  | function {start name opening names close body p₀ p₁ p₂ p₃ p₄ p₅ p₆}
      (hFunction : Takes (.keyword .kwFunction) start p₀ p₁)
      (hName : Derives rule (.functionName name) p₁ p₂)
      (hOpen : Takes (.symbol .leftParen) opening p₂ p₃)
      (hParams : Derives rule (.params names) p₃ p₄)
      (hClose : Takes (.symbol .rightParen) close p₄ p₅)
      (hBody : Derives rule (.block body) p₅ p₆) :
      Derives rule (.primary (.named name (start.merge p₆.last) names body)) p₀ p₆
  | anonymous {p} : Derives rule (.functionName none) p p
  | functionName {name span p q} (hName : Takes (.ident name) span p q) :
      Derives rule (.functionName (some name)) p q
  | noParams {p} : Derives rule (.params []) p p
  | someParams {names p q} (hNames : Derives rule (.paramList names) p q) :
      Derives rule (.params names) p q
  | lastParam {name span p q} (hName : Takes (.ident name) span p q) :
      Derives rule (.paramList [name]) p q
  | nextParam {name span comma names p₀ p₁ p₂ p₃} (hName : Takes (.ident name) span p₀ p₁)
      (hComma : Takes (.symbol .comma) comma p₁ p₂)
      (hNames : Derives rule (.paramList names) p₂ p₃) :
      Derives rule (.paramList (name :: names)) p₀ p₃

/-- A list of tokens is a program that stands for a tree. -/
def IsProgram (rule : ElseRule) (tokens : List Token) (tree : Tree) : Prop :=
  ∃ last, Derives rule (.program tree) ⟨.origin, tokens⟩ ⟨last, []⟩

end Grammar

end FeatherScript
