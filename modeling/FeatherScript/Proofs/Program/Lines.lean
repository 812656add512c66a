import FeatherScript.Proofs.Tree.Outline
import FeatherScript.Transcript

/-!
# Transcripts lose nothing

Printed values are written into one text, a line for each, and read back by lines. What is read back
is what was printed, since no value shows the end of a line.

* `InLine`: characters that stay within one line.
* `lines_ofValues`: the lines of a transcript are the printed forms of the values.
-/

namespace FeatherScript

/-- The characters end no line. -/
def InLine (cs : List Char) : Prop := ∀ c ∈ cs, c ≠ '\n' ∧ c ≠ '\r'

theorem inLine_cons {c : Char} {cs : List Char} :
    InLine (c :: cs) ↔ (c ≠ '\n' ∧ c ≠ '\r') ∧ InLine cs :=
  List.forall_mem_cons

theorem inLine_append {cs ds : List Char} : InLine (cs ++ ds) ↔ InLine cs ∧ InLine ds :=
  List.forall_mem_append

instance (cs : List Char) : Decidable (InLine cs) :=
  List.decidableBAll (fun c => c ≠ '\n' ∧ c ≠ '\r') cs

theorem inLine_of_isNumeral {cs : List Char} (h : IsNumeral cs) : InLine cs := by
  intro c hMem
  have hDigit := h.2 c hMem
  constructor
  all_goals
    rintro rfl
    cases hDigit

/-! ## Values -/

theorem inLine_integer (n : Int64) : InLine (Integer.text n).toList := by
  obtain ⟨digits, hNumeral, ⟨hText, -⟩ | ⟨hText, -⟩⟩ := Integer.exists_digits n
  · rw [hText]
    exact inLine_of_isNumeral hNumeral
  · rw [hText, inLine_cons]
    exact ⟨by decide, inLine_of_isNumeral hNumeral⟩

theorem inLine_natural (n : Nat) : InLine (toString n).toList := by
  refine inLine_of_isNumeral ⟨?_, fun c hMem => ?_⟩
  · rw [Nat.toString_eq_repr, Nat.toList_repr]
    exact Nat.toDigits_ne_nil
  · rw [Nat.toString_eq_repr, Nat.toList_repr] at hMem
    exact Nat.isDigit_of_mem_toDigits (by decide) (by decide) hMem

/-- The printed form of a value is one line. -/
theorem Value.inLine_text (v : Value) : InLine v.text.toList := by
  cases v with
  | int n => exact inLine_integer n
  | bool b => cases b <;> decide
  | null => decide
  | closure c =>
    change InLine ("<function/" ++ toString c.params.size ++ ">").toList
    rw [String.toList_append, String.toList_append, inLine_append, inLine_append]
    exact ⟨⟨by decide, inLine_natural _⟩, by decide⟩

/-! ## Lines -/

namespace Transcript

theorem split_append {line : List Char} (h : InLine line) (rest : List Char) :
    split (line ++ '\n' :: rest) = line :: split rest := by
  induction line with
  | nil => rfl
  | cons c cs ih =>
    obtain ⟨⟨hFeed, hReturn⟩, hLine⟩ := inLine_cons.mp h
    rw [List.cons_append, split, ih hLine]
    · exact hFeed
    · exact fun _ hStart _ => hReturn hStart

/-- The lines of a transcript are the printed forms of the values. -/
theorem lines_ofValues (values : List Value) : lines (ofValues values) = values.map Value.text := by
  induction values with
  | nil => rfl
  | cons v vs ih =>
    have hText : (ofValues (v :: vs)).toList = v.text.toList ++ '\n' :: (ofValues vs).toList := by
      simp [ofValues]
    unfold lines at ih ⊢
    rw [hText, split_append v.inLine_text, List.map_cons, ih, String.ofList_toList, List.map_cons]

end Transcript

end FeatherScript
