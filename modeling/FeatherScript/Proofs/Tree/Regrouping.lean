import FeatherScript.Tree.Basic
import Mathlib.Data.List.Forall2
import Mathlib.Logic.Relation

/-!
# Trees up to the grouping of their sequences

A sequence has two parts, so three constructs in a row can be grouped in two ways. A tree is
regrouped by changing from one way to the other in any number of places at once, in the bodies of
functions and loops and in branches too. All else stays the same, except that a sequence with other
parts may have another span.

* `Tree.Regrouped`: one such change. Changes one after another are `Relation.ReflTransGen`.
* `Regrouped.symm`: a change can be taken back.
-/

namespace FeatherScript.Tree

/-- The first tree becomes the second by grouping sequences in it the other way. -/
inductive Regrouped : Tree → Tree → Prop
  | int (span value) : Regrouped (.int span value) (.int span value)
  | bool (span value) : Regrouped (.bool span value) (.bool span value)
  | null (span) : Regrouped (.null span) (.null span)
  | ref (span name) : Regrouped (.ref span name) (.ref span name)
  | print {span a a'} (hArgument : Regrouped a a') : Regrouped (.print span a) (.print span a')
  | binary {span op a a' b b'} (hLeft : Regrouped a a') (hRight : Regrouped b b') :
      Regrouped (.binary span op a b) (.binary span op a' b')
  | branch {span c c' a a'} (hCondition : Regrouped c c') (hConsequent : Regrouped a a') :
      Regrouped (.branch span c a none) (.branch span c' a' none)
  | branchElse {span c c' a a' b b'} (hCondition : Regrouped c c') (hConsequent : Regrouped a a')
      (hAlternative : Regrouped b b') :
      Regrouped (.branch span c a (some b)) (.branch span c' a' (some b'))
  | loop {span c c' a a'} (hCondition : Regrouped c c') (hBody : Regrouped a a') :
      Regrouped (.loop span c a) (.loop span c' a')
  | declare {span name a a'} (hValue : Regrouped a a') :
      Regrouped (.declare span name a) (.declare span name a')
  | assign {span name a a'} (hValue : Regrouped a a') :
      Regrouped (.assign span name a) (.assign span name a')
  | function {span params a a'} (hBody : Regrouped a a') :
      Regrouped (.function span params a) (.function span params a')
  | call {span f f' args args'} (hCallee : Regrouped f f')
      (hArgs : List.Forall₂ Regrouped args args') :
      Regrouped (.call span f args) (.call span f' args')
  | sequence {span span' a a' b b'} (hFirst : Regrouped a a') (hSecond : Regrouped b b') :
      Regrouped (.sequence span a b) (.sequence span' a' b')
  | toRight {outer inner outer' inner' a a' b b' c c'} (hFirst : Regrouped a a')
      (hSecond : Regrouped b b') (hThird : Regrouped c c') :
      Regrouped (.sequence outer (.sequence inner a b) c)
        (.sequence outer' a' (.sequence inner' b' c'))
  | toLeft {outer inner outer' inner' a a' b b' c c'} (hFirst : Regrouped a a')
      (hSecond : Regrouped b b') (hThird : Regrouped c c') :
      Regrouped (.sequence outer a (.sequence inner b c))
        (.sequence outer' (.sequence inner' a' b') c')

namespace Regrouped

theorem refl (tree : Tree) : Regrouped tree tree := by
  cases tree with
  | int span value => exact .int span value
  | bool span value => exact .bool span value
  | null span => exact .null span
  | ref span name => exact .ref span name
  | print span a => exact .print (refl a)
  | binary span op a b => exact .binary (refl a) (refl b)
  | branch span c a other =>
    cases other with
    | none => exact .branch (refl c) (refl a)
    | some b => exact .branchElse (refl c) (refl a) (refl b)
  | loop span c a => exact .loop (refl c) (refl a)
  | declare span name a => exact .declare (refl a)
  | assign span name a => exact .assign (refl a)
  | function span params a => exact .function (refl a)
  | sequence span a b => exact .sequence (refl a) (refl b)
  | call span f args =>
    refine .call (refl f) (List.forall₂_same.mpr fun arg hArg => ?_)
    have hSize := List.sizeOf_lt_of_mem hArg
    exact refl arg
termination_by tree

theorem symm {a b : Tree} (h : Regrouped a b) : Regrouped b a := by
  cases h with
  | int span value => exact .int span value
  | bool span value => exact .bool span value
  | null span => exact .null span
  | ref span name => exact .ref span name
  | print hArgument => exact .print hArgument.symm
  | binary hLeft hRight => exact .binary hLeft.symm hRight.symm
  | branch hCondition hConsequent => exact .branch hCondition.symm hConsequent.symm
  | branchElse hCondition hConsequent hAlternative =>
    exact .branchElse hCondition.symm hConsequent.symm hAlternative.symm
  | loop hCondition hBody => exact .loop hCondition.symm hBody.symm
  | declare hValue => exact .declare hValue.symm
  | assign hValue => exact .assign hValue.symm
  | function hBody => exact .function hBody.symm
  | sequence hFirst hSecond => exact .sequence hFirst.symm hSecond.symm
  | toRight hFirst hSecond hThird => exact .toLeft hFirst.symm hSecond.symm hThird.symm
  | toLeft hFirst hSecond hThird => exact .toRight hFirst.symm hSecond.symm hThird.symm
  | @call span f f' args args' hCallee hArgs =>
    have hEach : ∀ arg ∈ args, ∀ arg', Regrouped arg arg' → Regrouped arg' arg := by
      intro arg hArg arg' hArgument
      have hSize := List.sizeOf_lt_of_mem hArg
      exact hArgument.symm
    have hBack := (List.forall₂_and_left args args').mpr ⟨hEach, hArgs⟩
    exact .call hCallee.symm (hBack.imp fun arg arg' hBoth => hBoth.1 arg' hBoth.2).flip
termination_by a

instance : Std.Symm Regrouped := ⟨fun _ _ => symm⟩

end Regrouped

end FeatherScript.Tree
