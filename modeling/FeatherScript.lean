import FeatherScript.Main
import FeatherScript.Proofs.Command.Arguments
import FeatherScript.Proofs.Diagnostic.Colours
import FeatherScript.Proofs.Diagnostic.Underline
import FeatherScript.Proofs.Eval.Application
import FeatherScript.Proofs.Eval.Arithmetic
import FeatherScript.Proofs.Eval.Assignment
import FeatherScript.Proofs.Eval.Blame
import FeatherScript.Proofs.Eval.LexicalScopes
import FeatherScript.Proofs.Eval.LoopFree
import FeatherScript.Proofs.Eval.OuterScopes
import FeatherScript.Proofs.Eval.Regrouping
import FeatherScript.Proofs.Eval.Truncation
import FeatherScript.Proofs.Eval.Unrolling
import FeatherScript.Proofs.Grammar.ErrorOrder
import FeatherScript.Proofs.Grammar.Extent
import FeatherScript.Proofs.Grammar.Nesting
import FeatherScript.Proofs.Grammar.Recognition
import FeatherScript.Proofs.Program.Positions
import FeatherScript.Proofs.Program.Printing
import FeatherScript.Proofs.Scope.Update
import FeatherScript.Proofs.Session.Bounds
import FeatherScript.Proofs.Session.Independence
import FeatherScript.Proofs.Source.Positions
import FeatherScript.Proofs.Token.Interner
import FeatherScript.Proofs.Token.Invalid
import FeatherScript.Proofs.Token.RoundTrip
import FeatherScript.Proofs.Token.Seams
import FeatherScript.Proofs.Tree.Notation
import FeatherScript.Session
