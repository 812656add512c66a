import FeatherScript.Grammar.State
import FeatherScript.Proofs.Token.Layout
import Mathlib.Data.List.Forall2

/-!
# Sources that differ in layout and spelling

Names are numbered in the order in which their identifiers first appear. So they do not depend on
what stands between the tokens, nor on how identifiers are spelled, as long as different ones are
spelled differently.

* `NameTable.internAll`: several texts interned one after the other.
* `internAll_identifiers`: the names of a source are those of its identifiers, interned in order.
* `InStep.internAll`: texts and their images under a renaming get the same names.
* `Lexed.Renames`: the tokens agree, up to a renaming of the identifiers.
* `Renames.same_names`: then they agree in the names too.
-/

namespace FeatherScript

/-! ## Interning texts and their images -/

namespace NameTable

/-- The names of several texts, and the table that has them. -/
def internAll (t : NameTable) : List String → List Name × NameTable
  | [] => ([], t)
  | text :: texts =>
    let (n, t) := t.intern text
    let (ns, t) := t.internAll texts
    (n :: ns, t)

theorem internAll_cons (t : NameTable) (text : String) (texts : List String) :
    t.internAll (text :: texts) = ((t.intern text).1 :: ((t.intern text).2.internAll texts).1,
      ((t.intern text).2.internAll texts).2) := rfl

variable {t t' : NameTable} {text other : String} {texts : List String} {ρ : String → String}
  {n m : Name}

/-- Two tables that have some texts and their images under the same names. -/
structure InStep (texts : List String) (ρ : String → String) (t t' : NameTable) : Prop where
  size : t'.size = t.size
  has : ∀ text ∈ texts, ∀ n, t'.Has (ρ text) n ↔ t.Has text n

namespace InStep

/-- The only text of the initial table is empty. -/
theorem initial (hTexts : ∀ text ∈ texts, text ≠ "" ∧ ρ text ≠ "") :
    InStep texts ρ .initial .initial := by
  have hOnly : ∀ {text : String} {n : Name}, NameTable.initial.Has text n → text = "" := by
    intro text n hHas
    exact List.mem_singleton.mp (Array.mem_toList_iff.mpr hHas.mem)
  refine ⟨rfl, fun text hMem n => ?_⟩
  obtain ⟨hText, hImage⟩ := hTexts text hMem
  exact ⟨fun hHas => absurd (hOnly hHas) hImage, fun hHas => absurd (hOnly hHas) hText⟩

/-- A text is in the one table if its image is in the other. -/
theorem mem_iff (h : InStep texts ρ t t') (hText : text ∈ texts) :
    ρ text ∈ t'.texts ↔ text ∈ t.texts := by
  constructor
  · intro hMem
    obtain ⟨n, hHas⟩ := exists_has hMem
    exact ((h.has text hText n).mp hHas).mem
  · intro hMem
    obtain ⟨n, hHas⟩ := exists_has hMem
    exact ((h.has text hText n).mpr hHas).mem

/-- A text and its image get the same name, and the tables stay in step. -/
theorem intern (h : InStep texts ρ t t')
    (hInjective : ∀ x ∈ texts, ∀ y ∈ texts, ρ x = ρ y → x = y) (hText : text ∈ texts) :
    (t'.intern (ρ text)).1 = (t.intern text).1 ∧
      InStep texts ρ (t.intern text).2 (t'.intern (ρ text)).2 := by
  have hBoth : (t'.intern (ρ text)).1 = (t.intern text).1 ∧
      (t'.intern (ρ text)).2.size = (t.intern text).2.size := by
    by_cases hMem : text ∈ t.texts
    · obtain ⟨n, hHas⟩ := exists_has hMem
      rw [intern_of_has hHas, intern_of_has ((h.has text hText n).mpr hHas)]
      exact ⟨rfl, h.size⟩
    · have hSize : t'.texts.size = t.texts.size := h.size
      rw [intern_of_not_mem hMem, intern_of_not_mem (mt (h.mem_iff hText).mp hMem), h.size]
      exact ⟨rfl, by simp only [NameTable.size, Array.size_push, hSize]⟩
  obtain ⟨hName, hSize⟩ := hBoth
  refine ⟨hName, hSize, fun other hOther n => ?_⟩
  have hImages : ρ other = ρ text ↔ other = text :=
    ⟨hInjective other hOther text hText, fun hSame => hSame ▸ rfl⟩
  rw [has_intern_iff, has_intern_iff, h.has other hOther n, hImages, hName]

/-- Texts and their images get the same names. -/
theorem internAll (h : InStep texts ρ t t')
    (hInjective : ∀ x ∈ texts, ∀ y ∈ texts, ρ x = ρ y → x = y) {more : List String}
    (hMore : ∀ text ∈ more, text ∈ texts) :
    (t'.internAll (more.map ρ)).1 = (t.internAll more).1 := by
  induction more generalizing t t' with
  | nil => rfl
  | cons text more ih =>
    obtain ⟨hName, hAfter⟩ := h.intern hInjective (hMore text List.mem_cons_self)
    have hRest := ih hAfter fun other hOther => hMore other (List.mem_cons_of_mem _ hOther)
    rw [List.map_cons, internAll_cons, internAll_cons, hName, hRest]

end InStep

end NameTable

/-! ## The identifiers of a source -/

open Grammar.State Text

/-- A lexeme interns one text and leaves its name, or it leaves no name and the table as it was. -/
theorem Lexeme.read_cases (names : NameTable) (l : Lexeme) :
    (∃ text, l.read names = (some (.ident (names.intern text).1), (names.intern text).2)) ∨
      ∃ kind?, l.read names = (kind?, names) ∧ kind?.bind nameOf? = none := by
  cases l with
  | word first more =>
    rw [read, wordKind]
    split
    · exact .inr ⟨_, rfl, rfl⟩
    · exact .inl ⟨_, rfl⟩
  | digits first more =>
    refine .inr ⟨_, rfl, ?_⟩
    cases Integer.ofInt? (decimalValue (first :: more)) <;> rfl
  | _ => exact .inr ⟨_, rfl, rfl⟩

/-- The names of the identifiers among some tokens, in order. -/
def namesOf (ts : List Token) : List Name := ts.filterMap fun t => nameOf? t.kind

theorem namesOf_cons_ident (n : Name) (span : Span) (ts : List Token) :
    namesOf (⟨.ident n, span⟩ :: ts) = n :: namesOf ts := rfl

theorem namesOf_cons_other {kind : TokenKind} (hName : nameOf? kind = none) (span : Span)
    (ts : List Token) : namesOf (⟨kind, span⟩ :: ts) = namesOf ts :=
  List.filterMap_cons_none hName

/-- The identifiers of a source, in order. -/
def Lexed.identifiers (l : Lexed) : List String := (namesOf l.tokens).map l.names.lookup

/-- The names of a source are those that its identifiers get when they are interned in order. -/
theorem internAll_identifiers (start : Nat) (names : NameTable) (ls : List Lexeme) :
    names.internAll (Lexed.ofLexemes start names ls).identifiers =
      (namesOf (Lexed.ofLexemes start names ls).tokens,
        (Lexed.ofLexemes start names ls).names) := by
  induction ls generalizing start names with
  | nil => rfl
  | cons l ls ih =>
    unfold Lexed.identifiers at ih ⊢
    rw [ofLexemes_cons]
    obtain ⟨text, hRead⟩ | ⟨kind?, hRead, hNone⟩ := l.read_cases names
    · -- The name of this text stays the same to the end, so the last table reads it back.
      have hRest := ih (start + byteLength l.text) (names.intern text).2
      have hLookup := (has_ofLexemes (start + byteLength l.text) ls (names.has_intern text)).lookup
      simp only [hRead, Option.toList_some, List.map_cons, List.map_nil, List.cons_append,
        List.nil_append, namesOf_cons_ident, hLookup, NameTable.internAll_cons, hRest]
    · have hRest := ih (start + byteLength l.text) names
      cases kind? with
      | none => simpa only [hRead, Option.toList_none, List.map_nil, List.nil_append] using hRest
      | some kind =>
        rw [Option.bind_some] at hNone
        simpa only [hRead, Option.toList_some, List.map_cons, List.map_nil, List.cons_append,
          List.nil_append, namesOf_cons_other hNone] using hRest

/-- No identifier is empty. -/
theorem identifiers_ne_empty (source : String) (names : NameTable) :
    ∀ x ∈ (lex source names).identifiers, x ≠ "" := by
  obtain ⟨ts, hTokens, hLaid⟩ := laid_lex source names
  intro x hMem
  obtain ⟨n, hName, rfl⟩ := List.mem_map.mp hMem
  obtain ⟨t, hToken, hKind⟩ := List.mem_filterMap.mp hName
  have hIdent : t.kind = .ident n := by
    cases hSame : t.kind with
    | ident m =>
      rw [hSame] at hKind
      cases hKind
      rfl
    | _ =>
      rw [hSame] at hKind
      cases hKind
  rw [hTokens] at hToken
  rcases List.mem_append.mp hToken with hInside | hEnd
  · obtain ⟨text, rest, -, -, hSpells, -⟩ := (hLaid.standsIn [] rfl t hInside).spelling
    obtain ⟨first, more, rfl, -⟩ := (hSpells.ident.mp ⟨n, hIdent⟩).1
    rw [hSpells.name n hIdent]
    intro hEmpty
    have hChars := congrArg String.toList hEmpty
    rw [String.toList_ofList] at hChars
    cases hChars
  · rw [List.mem_singleton.mp hEnd] at hIdent
    cases hIdent

/-! ## Tokens that agree up to a renaming -/

/-- Kinds that differ at most in their names, which are related. -/
inductive TokenKind.Alike (R : Name → Name → Prop) : TokenKind → TokenKind → Prop
  | ident {n n'} (h : R n n') : TokenKind.Alike R (.ident n) (.ident n')
  | other {kind} (hName : nameOf? kind = none) : TokenKind.Alike R kind kind

/-- Tokens of alike kinds, whatever their spans. -/
abbrev TokensAlike (R : Name → Name → Prop) : List Token → List Token → Prop :=
  List.Forall₂ fun t t' => t.kind.Alike R t'.kind

/-- The tokens of two sources agree in everything but their spans and the identifiers, which a
renaming turns into each other. -/
structure Lexed.Renames (ρ : String → String) (l l' : Lexed) : Prop where
  injective : ∀ x ∈ l.identifiers, ∀ y ∈ l.identifiers, ρ x = ρ y → x = y
  tokens : TokensAlike (fun n n' => l'.names.lookup n' = ρ (l.names.lookup n)) l.tokens l'.tokens

section

variable {R : Name → Name → Prop} {ts ts' : List Token} {ρ : String → String}

theorem TokensAlike.names (h : TokensAlike R ts ts') :
    List.Forall₂ R (namesOf ts) (namesOf ts') := by
  induction h with
  | nil => exact .nil
  | @cons t t' ts ts' hKind h ih =>
    obtain ⟨kind, span⟩ := t
    obtain ⟨kind', span'⟩ := t'
    dsimp only at hKind
    cases hKind with
    | ident hName => exact .cons hName ih
    | other hName =>
      rw [namesOf_cons_other hName, namesOf_cons_other hName]
      exact ih

/-- Alike tokens with the same names are alike by a relation that says so. -/
theorem TokensAlike.of_names_eq (h : TokensAlike R ts ts') (hNames : namesOf ts' = namesOf ts) :
    TokensAlike (fun n n' => n' = n ∧ R n n') ts ts' := by
  induction h with
  | nil => exact .nil
  | @cons t t' ts ts' hKind h ih =>
    obtain ⟨kind, span⟩ := t
    obtain ⟨kind', span'⟩ := t'
    dsimp only at hKind
    cases hKind with
    | ident hName =>
      obtain ⟨hSame, hRest⟩ := List.cons.inj hNames
      exact .cons (.ident ⟨hSame, hName⟩) (ih hRest)
    | other hName =>
      rw [namesOf_cons_other hName, namesOf_cons_other hName] at hNames
      exact .cons (.other hName) (ih hNames)

namespace Lexed.Renames

theorem identifiers_eq {l l' : Lexed} (h : l.Renames ρ l') :
    l'.identifiers = l.identifiers.map ρ := by
  have hNames := h.tokens.names
  unfold identifiers
  generalize namesOf l.tokens = ns at hNames ⊢
  generalize namesOf l'.tokens = ns' at hNames ⊢
  rw [List.map_map]
  induction hNames with
  | nil => rfl
  | cons hName _ ih => rw [List.map_cons, List.map_cons, ih, hName, Function.comp_apply]

/-- Where the tokens agree up to a renaming, they have the same names. -/
theorem same_names {source source' : String}
    (h : (lex source .initial).Renames ρ (lex source' .initial)) :
    TokensAlike (fun n n' => n' = n ∧
        (lex source' .initial).names.lookup n' = ρ ((lex source .initial).names.lookup n))
      (lex source .initial).tokens (lex source' .initial).tokens := by
  have hImages := h.identifiers_eq
  have hStart : NameTable.InStep (lex source .initial).identifiers ρ .initial .initial := by
    refine .initial fun text hMem => ⟨identifiers_ne_empty source _ text hMem, ?_⟩
    refine identifiers_ne_empty source' .initial _ ?_
    rw [hImages]
    exact List.mem_map_of_mem hMem
  have hNames := hStart.internAll h.injective fun text hMem => hMem
  have hFirst := internAll_identifiers 0 .initial (lexemes source.toList)
  have hSecond := internAll_identifiers 0 .initial (lexemes source'.toList)
  rw [← hImages] at hNames
  exact h.tokens.of_names_eq
    ((congrArg Prod.fst hSecond).symm.trans (hNames.trans (congrArg Prod.fst hFirst)))

end Lexed.Renames

end

end FeatherScript
