import FeatherScript.Command.Arguments
import FeatherScript.Proofs.Token.Spelling
import Mathlib.Data.List.Basic
import Mathlib.Data.List.Induction

/-!
# What the arguments of a run say

Arguments are examined from left to right, but what they say hardly depends on their order: it is
the one path among them, the switches that occur, and the call depth that is asked for last. An
argument offends if it cannot be used after those before it, and the first one that does is the
error.

* `Reads`: what a list of arguments says.
* `Offends`, `FirstOffence`: the arguments that cannot be used, and the first of them.
* `Progress.Follows.add`: what one more argument changes, or why it offends.
* `run_arguments`: the arguments of all runs.
-/

namespace FeatherScript

/-! ## Single arguments -/

/-- The text is a numeral, perhaps after a plus sign, of a number that has at most 64 bits. -/
def IsDepth (text : String) (n : Nat) : Prop :=
  ∃ digits, IsNumeral digits ∧ (text.toList = digits ∨ text.toList = '+' :: digits) ∧
    decimalValue digits = n ∧ n < UInt64.size

/-- The argument is an option and no path. -/
def IsOption (arg : String) : Prop := "--".toList <+: arg.toList

/-- The argument asks for a call depth. -/
def AsksDepth (arg : String) : Prop := "--max-depth=".toList <+: arg.toList

instance : DecidablePred IsOption := fun arg =>
  inferInstanceAs (Decidable ("--".toList <+: arg.toList))

instance : DecidablePred AsksDepth := fun arg =>
  inferInstanceAs (Decidable ("--max-depth=".toList <+: arg.toList))

/-- The argument asks for the call depth `n`. -/
def Asks (arg : String) (n : Nat) : Prop := ∃ text, arg = "--max-depth=" ++ text ∧ IsDepth text n

/-- The argument is an option that can be used. -/
def IsUsable (arg : String) : Prop :=
  arg = "--strict-arity" ∨ arg = "--show-result" ∨ ∃ n, Asks arg n

/-- What is left of a text without a plus sign in front. -/
def withoutPlus (text : List Char) : List Char :=
  if text.head? = some '+' then text.tail else text

theorem isDepth_iff {text : String} {n : Nat} : IsDepth text n ↔
    IsNumeral (withoutPlus text.toList) ∧ decimalValue (withoutPlus text.toList) = n ∧
      n < UInt64.size := by
  unfold IsDepth withoutPlus
  constructor
  · rintro ⟨digits, hNumeral, hText | hText, hDepth⟩
    · -- No numeral starts with a plus sign.
      have hDigit : text.toList.head? ≠ some '+' := by
        intro hHead
        cases hNumeral.2 '+' (List.mem_of_mem_head? (hText ▸ hHead))
      rw [if_neg hDigit, hText]
      exact ⟨hNumeral, hDepth⟩
    · rw [hText, List.head?_cons, if_pos rfl]
      exact ⟨hNumeral, hDepth⟩
  · intro h
    split at h
    · next hHead =>
      obtain ⟨digits, hText⟩ := List.head?_eq_some_iff.mp hHead
      rw [hText] at h
      exact ⟨digits, h.1, .inr hText, h.2⟩
    · exact ⟨text.toList, h.1, .inl rfl, h.2⟩

theorem readDepth?_eq_some_iff {text : String} {n : Nat} :
    readDepth? text.toList = some n ↔ IsDepth text n := by
  have hLargest : n < UInt64.size ↔ n ≤ largestDepth := Nat.lt_succ_iff
  have hUnfold : readDepth? text.toList =
      if withoutPlus text.toList ≠ [] ∧ (withoutPlus text.toList).all Char.isDigit then
        if decimalValue (withoutPlus text.toList) ≤ largestDepth then
          some (decimalValue (withoutPlus text.toList)) else none
      else none := rfl
  rw [hUnfold, isDepth_iff, hLargest, IsNumeral, ← List.all_eq_true]
  constructor
  · intro h
    split at h
    · split at h
      · cases h
        exact ⟨‹_›, rfl, ‹_›⟩
      · cases h
    · cases h
  · rintro ⟨hNumeral, rfl, hSmall⟩
    rw [if_pos hNumeral, if_pos hSmall]

theorem IsDepth.unique {text : String} {n n' : Nat} (h : IsDepth text n) (h' : IsDepth text n') :
    n = n' :=
  Option.some.inj ((readDepth?_eq_some_iff.mpr h).symm.trans (readDepth?_eq_some_iff.mpr h'))

/-- A text that starts with another one continues it. -/
theorem eq_append_ofList {text start : String} {rest : List Char}
    (h : start.toList ++ rest = text.toList) : text = start ++ String.ofList rest := by
  rw [← String.toList_inj, String.toList_append, String.toList_ofList, h]

theorem asksDepth_iff {arg : String} : AsksDepth arg ↔ ∃ text, arg = "--max-depth=" ++ text := by
  constructor
  · rintro ⟨rest, hText⟩
    exact ⟨String.ofList rest, eq_append_ofList hText⟩
  · rintro ⟨text, rfl⟩
    exact ⟨text.toList, String.toList_append.symm⟩

theorem asksDepth_append (text : String) : AsksDepth ("--max-depth=" ++ text) :=
  asksDepth_iff.mpr ⟨text, rfl⟩

theorem AsksDepth.isOption {arg : String} (h : AsksDepth arg) : IsOption arg :=
  List.IsPrefix.trans (by decide) h

/-- What an argument is by itself, as its text shows. -/
inductive Argument.Denotes (arg : String) : Argument → Prop
  | strictArity (hText : arg = "--strict-arity") : Denotes arg .strictArity
  | showResult (hText : arg = "--show-result") : Denotes arg .showResult
  | maxDepth {text} (hText : arg = "--max-depth=" ++ text) : Denotes arg (.maxDepth text.toList)
  | otherOption (hOption : IsOption arg) (hArity : arg ≠ "--strict-arity")
      (hResult : arg ≠ "--show-result") (hDepth : ¬ AsksDepth arg) : Denotes arg .otherOption
  | positional (hPath : ¬ IsOption arg) : Denotes arg .positional

theorem Argument.denotes_ofText (arg : String) : Denotes arg (ofText arg) := by
  unfold ofText
  split
  · next hArity => exact .strictArity hArity
  split
  · next hResult => exact .showResult hResult
  split
  · next depth hRest =>
    have hText := eq_append_ofList (List.isPrefixOf?_eq_some_iff_append_eq.mp hRest)
    have hDenotes := Denotes.maxDepth hText
    rwa [String.toList_ofList] at hDenotes
  · next hArity hResult _ hRest =>
    have hDepth : ¬ AsksDepth arg := by
      rintro ⟨rest, hText⟩
      cases hRest.symm.trans (List.isPrefixOf?_eq_some_iff_append_eq.mpr hText)
    split
    · next hOption =>
      exact .otherOption (List.isPrefixOf_iff_prefix.mp hOption) hArity hResult hDepth
    · next hPath =>
      exact .positional fun hOption => hPath (List.isPrefixOf_iff_prefix.mpr hOption)

/-! ## Lists of arguments -/

/-- The call depth that the last depth option asks for, or the default if there is none. -/
def LastDepth (options : List String) (n : Nat) : Prop :=
  match options.getLast? with
  | none => n = Options.default.maxDepth
  | some arg => Asks arg n

/-- What arguments say: their paths, options that can be used, the switches that occur, and the call
depth that is asked for last. -/
structure Reads (args paths : List String) (options : Options) (showResult : Bool) : Prop where
  paths : args.filter (¬ IsOption ·) = paths
  usable : ∀ arg ∈ args, IsOption arg → IsUsable arg
  strict : options.policy = .strict ↔ "--strict-arity" ∈ args
  showResult : showResult = true ↔ "--show-result" ∈ args
  maxDepth : LastDepth (args.filter (AsksDepth ·)) options.maxDepth

/-- The argument cannot be used after others: it asks for no depth that there is, or it is no known
option, or it is a second path. -/
inductive Offends (before : List String) (arg : String) : ArgumentError → Prop
  | depth {text} (hText : arg = "--max-depth=" ++ text) (hNone : ∀ n, ¬ IsDepth text n) :
      Offends before arg (.invalidDepth text)
  | option (hOption : IsOption arg) (hArity : arg ≠ "--strict-arity")
      (hResult : arg ≠ "--show-result") (hDepth : ¬ AsksDepth arg) :
      Offends before arg (.unknownOption arg)
  | path (hPath : ¬ IsOption arg) (hOther : ∃ other ∈ before, ¬ IsOption other) :
      Offends before arg (.unexpectedArgument arg)

/-- No argument offends after those before it. -/
def Inoffensive (args : List String) : Prop :=
  ∀ before arg after e, args = before ++ arg :: after → ¬ Offends before arg e

/-- The first argument that offends does so with the error. -/
def FirstOffence (args : List String) (e : ArgumentError) : Prop :=
  ∃ before arg after, args = before ++ arg :: after ∧ Inoffensive before ∧ Offends before arg e

variable {args args' before paths paths' : List String} {options options' : Options}
  {showResult showResult' : Bool} {arg : String} {e e' : ArgumentError} {p : RunArguments.Progress}

theorem LastDepth.unique {n n' : Nat} (h : LastDepth args n) (h' : LastDepth args n') :
    n = n' := by
  unfold LastDepth at h h'
  cases hLast : args.getLast? with
  | none =>
    rw [hLast] at h h'
    exact h.trans h'.symm
  | some arg =>
    rw [hLast] at h h'
    obtain ⟨text, rfl, hDepth⟩ := h
    obtain ⟨text', hSame, hDepth'⟩ := h'
    rw [String.append_right_inj] at hSame
    exact hDepth.unique (hSame ▸ hDepth')

/-- Arguments say one thing only. -/
theorem Reads.unique (h : Reads args paths options showResult)
    (h' : Reads args paths options' showResult') :
    options' = options ∧ showResult' = showResult := by
  have hDepth := h'.maxDepth.unique h.maxDepth
  have hStrict := h'.strict.trans h.strict.symm
  obtain ⟨policy, maxDepth⟩ := options
  obtain ⟨policy', maxDepth'⟩ := options'
  obtain rfl : maxDepth' = maxDepth := hDepth
  refine ⟨congrArg (Options.mk · _) ?_, Bool.eq_iff_iff.mpr (h'.showResult.trans h.showResult.symm)⟩
  cases policy <;> cases policy' <;> simp_all

/-- What the arguments say does not depend on their order, but for the depth options. -/
theorem Reads.perm {path : String} (h : Reads args [path] options showResult)
    (hPerm : args'.Perm args)
    (hDepths : args'.filter (AsksDepth ·) = args.filter (AsksDepth ·)) :
    Reads args' [path] options showResult where
  paths := List.perm_singleton.mp (h.paths ▸ hPerm.filter _)
  usable arg hMem := h.usable arg (hPerm.mem_iff.mp hMem)
  strict := h.strict.trans hPerm.mem_iff.symm
  showResult := h.showResult.trans hPerm.mem_iff.symm
  maxDepth := hDepths ▸ h.maxDepth

/-! ## One more argument -/

/-- What one more argument changes of what the arguments say. -/
theorem Reads.snoc (h : Reads before paths options showResult)
    (hPaths : paths' = if IsOption arg then paths else paths ++ [arg])
    (hUsable : IsOption arg → IsUsable arg)
    (hStrict : options'.policy = .strict ↔ options.policy = .strict ∨ arg = "--strict-arity")
    (hResult : showResult' = true ↔ showResult = true ∨ arg = "--show-result")
    (hAsks : AsksDepth arg → Asks arg options'.maxDepth)
    (hKeeps : ¬ AsksDepth arg → options'.maxDepth = options.maxDepth) :
    Reads (before ++ [arg]) paths' options' showResult' where
  paths := by
    rw [List.filter_append, h.paths, hPaths]
    by_cases hOption : IsOption arg <;> simp [hOption]
  usable other hMem hOption := by
    rcases List.mem_append.mp hMem with hBefore | hLast
    · exact h.usable other hBefore hOption
    · obtain rfl := List.mem_singleton.mp hLast
      exact hUsable hOption
  strict := by
    rw [hStrict, h.strict, List.mem_append, List.mem_singleton, eq_comm (a := arg)]
  showResult := by
    rw [hResult, h.showResult, List.mem_append, List.mem_singleton, eq_comm (a := arg)]
  maxDepth := by
    rw [List.filter_append]
    by_cases hDepth : AsksDepth arg
    · have hLast : LastDepth (before.filter (AsksDepth ·) ++ [arg]) options'.maxDepth := by
        unfold LastDepth
        rw [List.getLast?_concat]
        exact hAsks hDepth
      simpa [hDepth] using hLast
    · rw [hKeeps hDepth]
      simpa [hDepth] using h.maxDepth

theorem IsUsable.isOption (h : IsUsable arg) : IsOption arg := by
  obtain rfl | rfl | ⟨n, text, rfl, -⟩ := h
  · decide
  · decide
  · exact (asksDepth_append text).isOption

theorem IsUsable.not_offends (h : IsUsable arg) : ¬ Offends before arg e := by
  intro hOffends
  cases hOffends with
  | @depth text hText hNone =>
    obtain rfl | rfl | ⟨n, text', rfl, hDepth⟩ := h
    · exact absurd (asksDepth_iff.mpr ⟨text, hText⟩) (by decide)
    · exact absurd (asksDepth_iff.mpr ⟨text, hText⟩) (by decide)
    · rw [String.append_right_inj] at hText
      exact hNone n (hText ▸ hDepth)
  | option _ hArity hResult hDepth =>
    obtain hText | hText | ⟨n, text, hText, -⟩ := h
    · exact hArity hText
    · exact hResult hText
    · exact hDepth (asksDepth_iff.mpr ⟨text, hText⟩)
  | path hPath => exact hPath h.isOption

/-- An argument offends in one way only. -/
theorem Offends.unique (h : Offends before arg e) (h' : Offends before arg e') : e' = e := by
  cases h with
  | depth hText =>
    have hAsks : AsksDepth arg := asksDepth_iff.mpr ⟨_, hText⟩
    cases h' with
    | depth hText' =>
      rw [(String.append_right_inj _).mp (hText'.symm.trans hText)]
    | option _ _ _ hDepth => exact absurd hAsks hDepth
    | path hPath => exact absurd hAsks.isOption hPath
  | option hOption _ _ hDepth =>
    cases h' with
    | depth hText => exact absurd (asksDepth_iff.mpr ⟨_, hText⟩) hDepth
    | option => rfl
    | path hPath => exact absurd hOption hPath
  | path hPath =>
    cases h' with
    | depth hText => exact absurd (asksDepth_iff.mpr ⟨_, hText⟩).isOption hPath
    | option hOption => exact absurd hOption hPath
    | path => rfl

namespace RunArguments

/-- The progress says what the arguments examined so far do. -/
def Progress.Follows (p : Progress) (before : List String) : Prop :=
  Reads before p.path.toList p.options p.showResult

theorem Progress.Follows.isSome_iff (h : p.Follows before) :
    p.path.isSome ↔ ∃ other ∈ before, ¬ IsOption other := by
  have hNone : p.path = none ↔ ∀ other ∈ before, IsOption other := by
    rw [← Option.toList_eq_nil_iff, ← h.paths, List.filter_eq_nil_iff]
    simp
  rw [← Option.ne_none_iff_isSome, ne_eq, hNone]
  simp

/-- One more argument is taken for what it says, unless it offends. -/
theorem Progress.Follows.add (h : p.Follows before) (arg : String) :
    (∃ q, p.add arg = .ok q ∧ q.Follows (before ++ [arg]) ∧ ∀ e, ¬ Offends before arg e) ∨
      ∃ e, p.add arg = .error e ∧ Offends before arg e := by
  have hSome := h.isSome_iff
  obtain ⟨path, ⟨policy, maxDepth⟩, showResult⟩ := p
  unfold add
  have hDenotes := Argument.denotes_ofText arg
  generalize Argument.ofText arg = a at hDenotes
  cases hDenotes with
  | strictArity hText =>
    have hUsable : IsUsable arg := .inl hText
    refine .inl ⟨⟨path, ⟨.strict, maxDepth⟩, showResult⟩, rfl, ?_, fun e => hUsable.not_offends⟩
    subst hText
    exact h.snoc (if_pos hUsable.isOption).symm (fun _ => hUsable) (by simp) (by simp)
      (fun hDepth => absurd hDepth (by decide)) fun _ => rfl
  | showResult hText =>
    have hUsable : IsUsable arg := .inr (.inl hText)
    refine .inl ⟨⟨path, ⟨policy, maxDepth⟩, true⟩, rfl, ?_, fun e => hUsable.not_offends⟩
    subst hText
    exact h.snoc (if_pos hUsable.isOption).symm (fun _ => hUsable) (by simp) (by simp)
      (fun hDepth => absurd hDepth (by decide)) fun _ => rfl
  | @maxDepth text hText =>
    have hAsks : AsksDepth arg := asksDepth_iff.mpr ⟨text, hText⟩
    cases hDepth : readDepth? text.toList with
    | none =>
      refine .inr ⟨.invalidDepth text, by simp [hDepth], .depth hText fun n hNumber => ?_⟩
      cases hDepth.symm.trans (readDepth?_eq_some_iff.mpr hNumber)
    | some n =>
      have hNumber : Asks arg n := ⟨text, hText, readDepth?_eq_some_iff.mp hDepth⟩
      have hUsable : IsUsable arg := .inr (.inr ⟨n, hNumber⟩)
      refine .inl ⟨⟨path, ⟨policy, n⟩, showResult⟩, by simp [hDepth], ?_,
        fun e => hUsable.not_offends⟩
      refine h.snoc (if_pos hUsable.isOption).symm (fun _ => hUsable) (or_iff_left ?_).symm
        (or_iff_left ?_).symm (fun _ => hNumber) fun hKeeps => absurd hAsks hKeeps
      all_goals
        rintro rfl
        exact absurd hAsks (by decide)
  | otherOption hOption hArity hResult hDepth =>
    exact .inr ⟨.unknownOption arg, rfl, .option hOption hArity hResult hDepth⟩
  | positional hPath =>
    cases path with
    | some other => exact .inr ⟨.unexpectedArgument arg, rfl, .path hPath (hSome.mp rfl)⟩
    | none =>
      refine .inl ⟨⟨some arg, ⟨policy, maxDepth⟩, showResult⟩, rfl, ?_, fun e hOffends => ?_⟩
      · refine h.snoc (if_neg hPath).symm (fun hOption => absurd hOption hPath)
          (or_iff_left ?_).symm (or_iff_left ?_).symm
          (fun hAsks => absurd hAsks.isOption hPath) fun _ => rfl
        all_goals
          rintro rfl
          exact hPath (by decide)
      · cases hOffends with
        | depth hText => exact hPath (asksDepth_iff.mpr ⟨_, hText⟩).isOption
        | option hOption => exact hPath hOption
        | path _ hOther => cases hSome.mpr hOther

end RunArguments

/-! ## All arguments -/

theorem inoffensive_nil : Inoffensive [] := by
  intro before arg after e hArgs
  simp at hArgs

/-- No argument offends if none does before the last, and the last does not. -/
theorem Inoffensive.snoc (h : Inoffensive args) (hLast : ∀ e, ¬ Offends args arg e) :
    Inoffensive (args ++ [arg]) := by
  intro before other after e hArgs
  rcases List.eq_nil_or_concat after with rfl | ⟨middle, last, rfl⟩
  · obtain ⟨rfl, hSame⟩ := List.append_inj' hArgs rfl
    cases hSame
    exact hLast e
  · have hArgs' : args ++ [arg] = (before ++ other :: middle) ++ [last] := by simpa using hArgs
    exact h before other middle e (List.append_inj' hArgs' rfl).1

/-- There is a first offence, unless there is none. -/
theorem FirstOffence.not_inoffensive (h : FirstOffence args e) : ¬ Inoffensive args := by
  obtain ⟨before, arg, after, hArgs, -, hOffends⟩ := h
  exact fun hNone => hNone before arg after e hArgs hOffends

theorem FirstOffence.snoc (h : FirstOffence args e) (arg : String) :
    FirstOffence (args ++ [arg]) e := by
  obtain ⟨before, other, after, rfl, hNone, hOffends⟩ := h
  exact ⟨before, other, after ++ [arg], by simp, hNone, hOffends⟩

/-- The first of the offences is one only. -/
theorem FirstOffence.unique (h : FirstOffence args e) (h' : FirstOffence args e') : e' = e := by
  obtain ⟨before, arg, after, rfl, hNone, hOffends⟩ := h
  obtain ⟨before', arg', after', hSame, hNone', hOffends'⟩ := h'
  rcases List.append_eq_append_iff.mp hSame with ⟨middle, rfl, hRest⟩ | ⟨middle, rfl, hRest⟩
  · cases middle with
    | nil =>
      cases hRest
      rw [List.append_nil] at hOffends'
      exact hOffends.unique hOffends'
    | cons first middle =>
      cases hRest
      exact absurd hOffends (hNone' before arg middle e rfl)
  · cases middle with
    | nil =>
      cases hRest
      rw [List.append_nil] at hOffends
      exact hOffends.unique hOffends'
    | cons first middle =>
      cases hRest
      exact absurd hOffends' (hNone before' arg' middle e' rfl)

/-- All arguments are taken for what they say, unless one offends. -/
theorem foldlM_add (args : List String) :
    (∃ p, args.foldlM RunArguments.Progress.add .initial = .ok p ∧ p.Follows args ∧
        Inoffensive args) ∨
      ∃ e, args.foldlM RunArguments.Progress.add .initial = .error e ∧ FirstOffence args e := by
  induction args using List.reverseRecOn with
  | nil => exact .inl ⟨_, rfl, ⟨rfl, nofun, by decide, by decide, rfl⟩, inoffensive_nil⟩
  | append_singleton args arg ih =>
    have hStep : (args ++ [arg]).foldlM RunArguments.Progress.add .initial
        = args.foldlM RunArguments.Progress.add .initial >>= fun p => p.add arg := by
      simp only [List.foldlM_append, List.foldlM_cons, List.foldlM_nil, bind_pure]
    rw [hStep]
    rcases ih with ⟨p, hRead, hFollows, hNone⟩ | ⟨e, hRead, hFirst⟩
    · rw [hRead]
      rcases hFollows.add arg with ⟨q, hAdd, hMore, hLast⟩ | ⟨e, hAdd, hOffends⟩
      · exact .inl ⟨q, hAdd, hMore, hNone.snoc hLast⟩
      · exact .inr ⟨e, hAdd, args, arg, [], rfl, hNone, hOffends⟩
    · rw [hRead]
      exact .inr ⟨e, rfl, hFirst.snoc arg⟩

/-- The arguments of a run are read for what they say. If they are not, then one of them offends, or
they are options only. -/
theorem read?_cases (args : List String) :
    (∃ r, RunArguments.read? args = .ok r ∧ Reads args [r.path] r.options r.showResult) ∨
      (RunArguments.read? args = .error .missingFile ∧ Inoffensive args ∧
        ∀ arg ∈ args, IsOption arg) ∨
      ∃ e, RunArguments.read? args = .error e ∧ FirstOffence args e := by
  unfold RunArguments.read?
  rcases foldlM_add args with
    ⟨⟨path, options, showResult⟩, hRead, hFollows, hNone⟩ | ⟨e, hRead, hFirst⟩
  · rw [hRead]
    cases path with
    | some path => exact .inl ⟨⟨path, options, showResult⟩, rfl, hFollows⟩
    | none =>
      refine .inr (.inl ⟨rfl, hNone, fun arg hMem => ?_⟩)
      by_contra hPath
      cases hFollows.isSome_iff.mpr ⟨arg, hMem, hPath⟩
  · rw [hRead]
    exact .inr (.inr ⟨e, rfl, hFirst⟩)

/-- Where one path stands among options that can be used, nothing offends. -/
theorem not_firstOffence {path : String} (hPath : args.filter (¬ IsOption ·) = [path])
    (hUsable : ∀ arg ∈ args, IsOption arg → IsUsable arg) : ¬ FirstOffence args e := by
  rintro ⟨before, arg, after, rfl, -, hOffends⟩
  by_cases hOption : IsOption arg
  · exact (hUsable arg (by simp) hOption).not_offends hOffends
  · cases hOffends with
    | depth hText => exact hOption (asksDepth_iff.mpr ⟨_, hText⟩).isOption
    | option hOption' => exact hOption hOption'
    | path _ hOther =>
      obtain ⟨other, hMem, hOther⟩ := hOther
      have hBefore : other ∈ before.filter (¬ IsOption ·) := by simp [hMem, hOther]
      rw [List.filter_append, List.filter_cons_of_pos (by simp [hOption]),
        List.append_eq_singleton_iff] at hPath
      rcases hPath with ⟨hNone, -⟩ | ⟨-, hNone⟩
      · rw [hNone] at hBefore
        cases hBefore
      · cases hNone

/-- Where one path stands among options that can be used, there is something to read. -/
theorem exists_read? {path : String} (hPath : args.filter (¬ IsOption ·) = [path])
    (hUsable : ∀ arg ∈ args, IsOption arg → IsUsable arg) :
    ∃ r, RunArguments.read? args = .ok r := by
  rcases read?_cases args with ⟨r, hRead, -⟩ | ⟨-, -, hOptions⟩ | ⟨e, -, hFirst⟩
  · exact ⟨r, hRead⟩
  · have hNone : args.filter (¬ IsOption ·) = [] := by simpa using hOptions
    cases hNone.symm.trans hPath
  · exact absurd hFirst (not_firstOffence hPath hUsable)

theorem read?_eq_ok_iff {r : RunArguments} :
    RunArguments.read? args = .ok r ↔ Reads args [r.path] r.options r.showResult := by
  have hReads : ∀ r, RunArguments.read? args = .ok r →
      Reads args [r.path] r.options r.showResult := by
    intro r hRead
    rcases read?_cases args with ⟨r', hRead', hReads⟩ | ⟨hError, -⟩ | ⟨e, hError, -⟩
    · cases hRead'.symm.trans hRead
      exact hReads
    · cases hError.symm.trans hRead
    · cases hError.symm.trans hRead
  refine ⟨hReads r, fun h => ?_⟩
  obtain ⟨r', hRead⟩ := exists_read? h.paths h.usable
  have h' := hReads r' hRead
  have hPath : [r'.path] = [r.path] := h'.paths.symm.trans h.paths
  rw [hPath] at h'
  obtain ⟨hOptions, hResult⟩ := h.unique h'
  obtain ⟨path', options', showResult'⟩ := r'
  cases hPath
  cases hOptions
  cases hResult
  exact hRead

theorem read?_eq_error_iff : RunArguments.read? args = .error e ↔
    FirstOffence args e ∨ e = .missingFile ∧ Inoffensive args ∧ ∀ arg ∈ args, IsOption arg := by
  rcases read?_cases args with ⟨r, hRead, hReads⟩ | ⟨hRead, hNone, hOptions⟩ | ⟨e', hRead, hFirst⟩
  · rw [hRead]
    refine ⟨nofun, ?_⟩
    rintro (hFirst | ⟨-, -, hOptions⟩)
    · exact absurd hFirst (not_firstOffence hReads.paths hReads.usable)
    · have hNone : args.filter (¬ IsOption ·) = [] := by simpa using hOptions
      cases hNone.symm.trans hReads.paths
  · rw [hRead]
    constructor
    · rintro ⟨⟩
      exact .inr ⟨rfl, hNone, hOptions⟩
    · rintro (hFirst | ⟨rfl, -⟩)
      · exact absurd hNone hFirst.not_inoffensive
      · rfl
  · rw [hRead]
    constructor
    · rintro ⟨⟩
      exact .inl hFirst
    · rintro (hFirst' | ⟨-, hNone, -⟩)
      · rw [hFirst.unique hFirst']
      · exact absurd hNone hFirst.not_inoffensive

/-- The arguments of a run can be read exactly when one of them is a path and all others are options
that can be used. They are read for that path, the switches that occur and the call depth asked for
last, in whatever order they stand, if the depth options keep theirs. Otherwise the error is that of
the first argument that offends, or a missing file if there is none. -/
theorem run_arguments (args : List String) :
    ((∃ r, RunArguments.read? args = .ok r) ↔
      (∃ path, args.filter (¬ IsOption ·) = [path]) ∧
        ∀ arg ∈ args, IsOption arg → IsUsable arg) ∧
    (∀ r, RunArguments.read? args = .ok r ↔ Reads args [r.path] r.options r.showResult) ∧
    (∀ args', args'.Perm args → args'.filter (AsksDepth ·) = args.filter (AsksDepth ·) →
      ∀ r, RunArguments.read? args' = .ok r ↔ RunArguments.read? args = .ok r) ∧
    ∀ e, RunArguments.read? args = .error e ↔
      FirstOffence args e ∨ e = .missingFile ∧ Inoffensive args ∧ ∀ arg ∈ args, IsOption arg := by
  refine ⟨⟨?_, ?_⟩, fun r => read?_eq_ok_iff, fun args' hPerm hDepths r => ?_,
    fun e => read?_eq_error_iff⟩
  · rintro ⟨r, hRead⟩
    have hReads := read?_eq_ok_iff.mp hRead
    exact ⟨⟨r.path, hReads.paths⟩, hReads.usable⟩
  · rintro ⟨⟨path, hPath⟩, hUsable⟩
    exact exists_read? hPath hUsable
  · rw [read?_eq_ok_iff, read?_eq_ok_iff]
    exact ⟨fun h => h.perm hPerm.symm hDepths.symm, fun h => h.perm hPerm hDepths⟩

/-- Of two depths the last one counts, wherever the path stands. -/
example : RunArguments.read? ["--max-depth=+64", "main", "--strict-arity", "--max-depth=7"]
    = .ok ⟨"main", ⟨.strict, 7⟩, false⟩ := by decide +kernel

end FeatherScript
