import FeatherScript.Proofs.Token.Interning
import Mathlib.Data.Finset.Card

/-!
# Interning with an index

A name table finds a text by going through all texts. An interner keeps an index besides, from the
texts to their names. It looks there twice, once to see whether a text has a name and once more
before it adds the text, which others may have added in between. Index and texts are always inverse
to each other, so an interner replies whatever a name table does, as long as there are numbers left
for names.

* `Interner.intern`, `Interner.add`: interning, and its second half.
* `Interner.Inverse`: every text is in the index, under its number.
* `Interner.intern_apart`: calls of others between the two looks make no difference.
* `Numbers`: names are the numbers of texts, in the order in which these were first interned.
* `Interner.names_bijective`: interners and name tables after all sequences of calls.
-/

namespace FeatherScript

/-! ## Interners -/

/-- The largest number of a name. -/
def largestName : Nat := 4294967295

/-- There is no number left for a new text besides those of the texts that are counted. -/
structure InternError where
  count : Nat
deriving DecidableEq

def InternError.message (e : InternError) : String :=
  s!"interner exceeded capacity: {e.count} strings, max is {largestName}"

/-- The names of texts, and the texts of all names in the order of their numbers. -/
structure Interner where
  index : Std.HashMap String Name
  texts : Array String

namespace Interner

/-- The interner that knows only the empty text. -/
def initial : Interner := ⟨(∅ : Std.HashMap String Name).insert "" ⟨0⟩, #[""]⟩

def size (i : Interner) : Nat := i.texts.size

/-- The text of a name; the empty text for an unknown one. -/
def lookup (i : Interner) (n : Name) : String := i.texts.getD n.index ""

/-- Gives a name to a text, unless it was given one after it was last looked for. -/
def add (i : Interner) (text : String) : Except InternError Name × Interner :=
  match i.index[text]? with
  | some n => (.ok n, i)
  | none =>
    if i.texts.size ≤ largestName then
      (.ok ⟨i.texts.size⟩, ⟨i.index.insert text ⟨i.texts.size⟩, i.texts.push text⟩)
    else (.error ⟨i.texts.size⟩, i)

/-- The name of a text, and the interner that has it. -/
def intern (i : Interner) (text : String) : Except InternError Name × Interner :=
  match i.index[text]? with
  | some n => (.ok n, i)
  | none => i.add text

/-! ## Calls -/

/-- What an interner can be asked. -/
inductive Call
  | intern (text : String)
  | lookup (name : Name)
deriving DecidableEq

inductive Reply
  | name (name : Name)
  | refused (error : InternError)
  | text (text : String)
deriving DecidableEq

def Reply.ofResult : Except InternError Name → Reply
  | .ok n => name n
  | .error e => refused e

def serve (i : Interner) : Call → Reply × Interner
  | .intern text => (.ofResult (i.intern text).1, (i.intern text).2)
  | .lookup n => (.text (i.lookup n), i)

theorem serve_intern (i : Interner) (text : String) :
    i.serve (.intern text) = (.ofResult (i.intern text).1, (i.intern text).2) := rfl

end Interner

open Interner

def NameTable.serve (t : NameTable) : Call → Reply × NameTable
  | .intern text => (.name (t.intern text).1, (t.intern text).2)
  | .lookup n => (.text (t.lookup n), t)

theorem NameTable.serve_intern (t : NameTable) (text : String) :
    t.serve (.intern text) = (.name (t.intern text).1, (t.intern text).2) := rfl

/-- The replies to calls that are made one after the other, and the state afterwards. -/
def serveAll {σ : Type} (serve : σ → Call → Reply × σ) (s : σ) : List Call → List Reply × σ
  | [] => ([], s)
  | call :: calls =>
    let (reply, s) := serve s call
    let (replies, s) := serveAll serve s calls
    (reply :: replies, s)

theorem serveAll_cons {σ : Type} (serve : σ → Call → Reply × σ) (s : σ) (call : Call)
    (calls : List Call) : serveAll serve s (call :: calls) =
      ((serve s call).1 :: (serveAll serve (serve s call).2 calls).1,
        (serveAll serve (serve s call).2 calls).2) := rfl

/-- What each call keeps, all calls keep. -/
theorem serveAll_keeps {σ : Type} {serve : σ → Call → Reply × σ} {P : σ → Prop}
    (hStep : ∀ s call, P s → P (serve s call).2) {s : σ} (h : P s) (calls : List Call) :
    P (serveAll serve s calls).2 := by
  induction calls generalizing s with
  | nil => exact h
  | cons call calls ih => exact ih (hStep s call h)

/-- The texts that calls intern. -/
def interned (calls : List Call) : List String :=
  calls.filterMap fun
    | .intern text => some text
    | .lookup _ => none

/-- The texts in the order in which they are first interned. The empty text comes before all. -/
def firstInterned (calls : List Call) : List String := ("" :: interned calls).eraseDups

/-- One of the calls interns the text, and the reply to it is the name. -/
def Given (calls : List Call) (replies : List Reply) (text : String) (n : Name) : Prop :=
  (Call.intern text, Reply.name n) ∈ calls.zip replies

/-- Names number the texts that calls intern, in the order in which they are first interned. What
each name is given to is found under it and nothing under others. -/
structure Numbers (calls : List Call) (replies : List Reply) (lookup : Name → String)
    (size : Nat) : Prop where
  given : ∀ text ∈ interned calls, ∃ n, Given calls replies text n
  one : ∀ text n text' n', Given calls replies text n → Given calls replies text' n' →
    (n = n' ↔ text = text')
  order : ∀ text n, Given calls replies text n → n.index = (firstInterned calls).idxOf text
  empty : ∀ n, Given calls replies "" n → n = ⟨0⟩
  found : ∀ text n, Given calls replies text n → lookup n = text
  unknown : ∀ n, (∀ text, ¬ Given calls replies text n) → lookup n = ""
  size : size = 1 + ((interned calls).filter (· ≠ "")).toFinset.card

/-! ## Calls of name tables -/

namespace NameTable

variable {t : NameTable} {calls : List Call} {text : String} {n : Name}

/-- What interning keeps, all calls keep. -/
theorem keeps_serveAll {P : NameTable → Prop} (hStep : ∀ t text, P t → P (t.intern text).2)
    (h : P t) (calls : List Call) : P (serveAll serve t calls).2 := by
  refine serveAll_keeps (fun t call hBefore => ?_) h calls
  cases call with
  | intern text => exact hStep t text hBefore
  | lookup => exact hBefore

/-- Interning adds a text at the end, unless the table has it. -/
theorem texts_intern (t : NameTable) (text : String) : (t.intern text).2.texts.toList =
    if text ∈ t.texts then t.texts.toList else t.texts.toList ++ [text] := by
  split
  · next hMem =>
    obtain ⟨n, hHas⟩ := exists_has hMem
    rw [intern_of_has hHas]
  · next hMem =>
    rw [intern_of_not_mem hMem]
    exact Array.toList_push

theorem size_le_intern (t : NameTable) (text : String) : t.size ≤ (t.intern text).2.size := by
  have hLength := congrArg List.length (t.texts_intern text)
  simp only [Array.length_toList] at hLength
  rw [size, size, hLength]
  split <;> simp

theorem size_le_serveAll (t : NameTable) (calls : List Call) :
    t.size ≤ (serveAll serve t calls).2.size :=
  keeps_serveAll (P := fun u => t.size ≤ u.size)
    (fun u text hLe => hLe.trans (u.size_le_intern text)) (Nat.le_refl _) calls

theorem nodup_intern (hOnce : t.texts.toList.Nodup) (text : String) :
    (t.intern text).2.texts.toList.Nodup := by
  rw [texts_intern]
  split
  · exact hOnce
  · next hMem =>
    rw [← List.concat_eq_append]
    exact hOnce.concat (mt Array.mem_toList_iff.mp hMem)

/-- A table that lists each text once does so after all calls. -/
theorem nodup_serveAll (hOnce : t.texts.toList.Nodup) (calls : List Call) :
    (serveAll serve t calls).2.texts.toList.Nodup :=
  keeps_serveAll (P := fun t => t.texts.toList.Nodup)
    (fun _ text hOnce => nodup_intern hOnce text) hOnce calls

/-- Texts are listed in the order in which they were first interned. -/
theorem texts_serveAll {earlier : List String} (hTexts : t.texts.toList = earlier.eraseDups)
    (calls : List Call) :
    (serveAll serve t calls).2.texts.toList = (earlier ++ interned calls).eraseDups := by
  induction calls generalizing t earlier with
  | nil => rw [interned, List.filterMap_nil, List.append_nil, serveAll, hTexts]
  | cons call calls ih =>
    cases call with
    | intern text =>
      have hMore : (t.intern text).2.texts.toList = (earlier ++ [text]).eraseDups := by
        have hMem : text ∈ t.texts ↔ text ∈ earlier := by
          rw [← Array.mem_toList_iff, hTexts, List.mem_eraseDups]
        rw [texts_intern, hTexts, List.eraseDups_append]
        by_cases hEarlier : text ∈ earlier
        · rw [if_pos (hMem.mpr hEarlier)]
          simp [List.removeAll, hEarlier]
        · rw [if_neg (mt hMem.mp hEarlier)]
          simp [List.removeAll, List.eraseDups_cons, hEarlier]
      rw [serveAll_cons]
      refine (ih hMore).trans ?_
      rw [List.append_assoc]
      rfl
    | lookup => exact ih hTexts

theorem texts_serveAll_initial (calls : List Call) :
    (serveAll serve .initial calls).2.texts.toList = firstInterned calls := by
  have hInitial : NameTable.initial.texts.toList = [""].eraseDups := rfl
  exact texts_serveAll hInitial calls

theorem Has.afterCalls (h : t.Has text n) (calls : List Call) :
    (serveAll serve t calls).2.Has text n :=
  keeps_serveAll (P := fun t => t.Has text n) (fun _ other h => h.intern other) h calls

/-- After some calls, texts have the names that they were given, and those that they had. -/
theorem has_serveAll_iff : (serveAll serve t calls).2.Has text n ↔
    t.Has text n ∨ Given calls (serveAll serve t calls).1 text n := by
  induction calls generalizing t with
  | nil => simp [serveAll, Given]
  | cons call calls ih =>
    rw [serveAll_cons, ih]
    cases call with
    | intern other =>
      simp only [serve, has_intern_iff, Given, List.zip_cons_cons, List.mem_cons, Prod.mk.injEq,
        Call.intern.injEq, Reply.name.injEq, or_assoc]
    | lookup m => simp [serve, Given]

/-- Every text that is interned is given a name. -/
theorem exists_given (hMem : text ∈ interned calls) :
    ∃ n, Given calls (serveAll serve t calls).1 text n := by
  induction calls generalizing t with
  | nil => cases hMem
  | cons call calls ih =>
    have hLater : text ∈ interned calls →
        ∃ n, Given (call :: calls) (serveAll serve t (call :: calls)).1 text n := fun hMem =>
      (ih hMem).imp fun n hGiven => List.mem_cons_of_mem _ hGiven
    cases call with
    | lookup => exact hLater hMem
    | intern other =>
      rcases List.mem_cons.mp hMem with rfl | hMem
      · exact ⟨(t.intern text).1, List.mem_cons_self⟩
      · exact hLater hMem

theorem has_initial : NameTable.initial.Has text n ↔ text = "" ∧ n = ⟨0⟩ := by
  constructor
  · intro h
    obtain rfl := List.mem_singleton.mp (Array.mem_toList_iff.mpr h.mem)
    exact ⟨rfl, h.unique ⟨rfl, nofun⟩⟩
  · rintro ⟨rfl, rfl⟩
    exact ⟨rfl, nofun⟩

/-- There is one text for each name, that of the empty text besides. -/
theorem size_serveAll (calls : List Call) : (serveAll serve .initial calls).2.size
    = 1 + ((interned calls).filter (· ≠ "")).toFinset.card := by
  have hOnce := nodup_serveAll (t := .initial) (List.nodup_singleton "") calls
  have hTexts := texts_serveAll_initial calls
  have hMembers : (serveAll serve .initial calls).2.texts.toList.toFinset
      = insert "" ((interned calls).filter (· ≠ "")).toFinset := by
    ext text
    rw [hTexts, firstInterned]
    by_cases hEmpty : text = "" <;> simp [hEmpty]
  rw [size, ← Array.length_toList, ← List.toFinset_card_of_nodup hOnce, hMembers,
    Finset.card_insert_of_notMem (by simp), Nat.add_comm]

/-- The names of an initial table after some calls are numbered in turn. -/
theorem numbers_serveAll (calls : List Call) :
    Numbers calls (serveAll serve .initial calls).1 (serveAll serve .initial calls).2.lookup
      (serveAll serve .initial calls).2.size := by
  have hOnce := nodup_serveAll (t := .initial) (List.nodup_singleton "") calls
  have hTexts := texts_serveAll_initial calls
  have hHas : ∀ text n, Given calls (serveAll serve .initial calls).1 text n →
      (serveAll serve .initial calls).2.Has text n :=
    fun text n hGiven => has_serveAll_iff.mpr (.inr hGiven)
  have hEmpty := (has_initial.mpr ⟨rfl, rfl⟩).afterCalls calls
  refine ⟨fun text hMem => exists_given hMem, fun text n text' n' hGiven hGiven' => ?_,
    fun text n hGiven => ?_, fun n hGiven => ?_,
    fun text n hGiven => (hHas text n hGiven).lookup, fun n hNever => ?_, size_serveAll calls⟩
  · have hText := hHas text n hGiven
    have hText' := hHas text' n' hGiven'
    constructor
    · rintro rfl
      exact hText.lookup.symm.trans hText'.lookup
    · rintro rfl
      exact hText.unique hText'
  · obtain ⟨hIndex, hText⟩ := Array.getElem?_eq_some_iff.mp (hHas text n hGiven).1
    rw [← Array.getElem_toList hIndex] at hText
    have hPlace := hOnce.idxOf_getElem n.index hIndex
    rw [hText, hTexts] at hPlace
    exact hPlace.symm
  · exact (hHas "" n hGiven).unique hEmpty
  · by_contra hText
    rcases has_serveAll_iff.mp (has_lookup hOnce hText) with hInitial | hGiven
    · exact hText (has_initial.mp hInitial).1
    · exact hNever _ hGiven

end NameTable

/-! ## Calls of interners -/

namespace Interner

variable {i : Interner} {text : String} {n : Name}

/-- What interning keeps, all calls keep. -/
theorem keeps_serveAll {P : Interner → Prop} (hStep : ∀ i text, P i → P (i.intern text).2)
    (h : P i) (calls : List Call) : P (serveAll serve i calls).2 := by
  refine serveAll_keeps (fun i call hBefore => ?_) h calls
  cases call with
  | intern text => exact hStep i text hBefore
  | lookup => exact hBefore

/-- The name table that has the texts of an interner. -/
def table (i : Interner) : NameTable := ⟨i.texts⟩

/-- Every text is in the index under its number, and nothing else is in the index. -/
def Inverse (i : Interner) : Prop :=
  ∀ (text : String) (n : Name), i.index[text]? = some n ↔ i.texts[n.index]? = some text

theorem inverse_initial : initial.Inverse := by
  rintro text ⟨k⟩
  have hTexts : initial.texts[k]? = some text ↔ k = 0 ∧ text = "" := by
    cases k with
    | zero => simp [initial, eq_comm]
    | succ k => simp [initial]
  rw [hTexts, initial, Std.HashMap.getElem?_insert]
  by_cases hText : text = ""
  · subst hText
    simp [eq_comm]
  · simp [hText, Ne.symm hText]

theorem Inverse.has_iff (h : i.Inverse) : i.table.Has text n ↔ i.index[text]? = some n := by
  refine ⟨fun hHas => (h text n).mpr hHas.1, fun hIndex => ⟨(h text n).mp hIndex, ?_⟩⟩
  intro k hLess hText
  cases hIndex.symm.trans ((h text ⟨k⟩).mpr hText)
  exact Nat.lt_irrefl _ hLess

/-- A new text is in the index when it is at the end of the texts. -/
theorem Inverse.push (h : i.Inverse) (hNew : text ∉ i.texts) :
    Inverse ⟨i.index.insert text ⟨i.size⟩, i.texts.push text⟩ := by
  rintro other ⟨k⟩
  have hOld : i.texts[k]? ≠ some text := fun hText => hNew (Array.mem_of_getElem? hText)
  dsimp only
  rw [Std.HashMap.getElem?_insert, Array.getElem?_push]
  by_cases hSame : text = other
  · subst hSame
    by_cases hLast : k = i.texts.size
    · simp [hLast, size]
    · simp [hLast, hOld, size, eq_comm]
  · by_cases hLast : k = i.texts.size
    · subst hLast
      simpa [hSame] using (h other ⟨i.texts.size⟩)
    · simpa [hSame, hLast] using h other ⟨k⟩

/-- A text that has a name is answered with it. Another one is added at the end, if there is room,
and otherwise refused. -/
theorem Inverse.intern_cases (h : i.Inverse) (text : String) :
    (∃ n, i.table.Has text n ∧ i.intern text = (.ok n, i)) ∨
      (text ∉ i.texts ∧ i.size ≤ largestName ∧ i.intern text =
        (.ok ⟨i.size⟩, ⟨i.index.insert text ⟨i.size⟩, i.texts.push text⟩)) ∨
      (text ∉ i.texts ∧ largestName < i.size ∧ i.intern text = (.error ⟨i.size⟩, i)) := by
  unfold intern add
  cases hIndex : i.index[text]? with
  | some n => exact .inl ⟨n, h.has_iff.mpr hIndex, rfl⟩
  | none =>
    have hNew : text ∉ i.texts := by
      intro hMem
      obtain ⟨n, hHas⟩ := NameTable.exists_has (t := i.table) hMem
      cases hIndex.symm.trans (h.has_iff.mp hHas)
    dsimp only
    split
    · next hRoom => exact .inr (.inl ⟨hNew, hRoom, rfl⟩)
    · next hFull => exact .inr (.inr ⟨hNew, Nat.lt_of_not_le hFull, rfl⟩)

theorem Inverse.intern (h : i.Inverse) (text : String) : (i.intern text).2.Inverse := by
  rcases h.intern_cases text with ⟨n, -, hReply⟩ | ⟨hNew, -, hReply⟩ | ⟨-, -, hReply⟩
  · rwa [hReply]
  · rw [hReply]
    exact h.push hNew
  · rwa [hReply]

theorem Inverse.afterCalls (h : i.Inverse) (calls : List Call) :
    (serveAll serve i calls).2.Inverse :=
  keeps_serveAll (P := Inverse) (fun _ text h => h.intern text) h calls

/-- An interner replies what its table does, if there is room for what that adds. -/
theorem Inverse.serve_eq (h : i.Inverse) {call : Call}
    (hRoom : (i.table.serve call).2.size ≤ largestName + 1) :
    (i.serve call).1 = (i.table.serve call).1 ∧
      (i.serve call).2.table = (i.table.serve call).2 := by
  cases call with
  | lookup n => exact ⟨rfl, rfl⟩
  | intern text =>
    rw [NameTable.serve_intern] at hRoom ⊢
    rw [serve_intern]
    rcases h.intern_cases text with ⟨n, hHas, hReply⟩ | ⟨hNew, -, hReply⟩ | ⟨hNew, hFull, -⟩
    · rw [hReply, NameTable.intern_of_has hHas]
      exact ⟨rfl, rfl⟩
    · rw [hReply, NameTable.intern_of_not_mem (t := i.table) hNew]
      exact ⟨rfl, rfl⟩
    · have hMore : (i.table.intern text).2.size = i.size + 1 := by
        rw [NameTable.intern_of_not_mem (t := i.table) hNew]
        exact Array.size_push ..
      rw [hMore] at hRoom
      omega

/-- The replies to calls made one after the other are those of the table, if there is room. -/
theorem Inverse.serveAll_eq (h : i.Inverse) {calls : List Call}
    (hRoom : (serveAll NameTable.serve i.table calls).2.size ≤ largestName + 1) :
    (serveAll serve i calls).1 = (serveAll NameTable.serve i.table calls).1 ∧
      (serveAll serve i calls).2.table = (serveAll NameTable.serve i.table calls).2 := by
  induction calls generalizing i with
  | nil => exact ⟨rfl, rfl⟩
  | cons call calls ih =>
    simp only [serveAll_cons] at hRoom ⊢
    obtain ⟨hReply, hTable⟩ := h.serve_eq ((NameTable.size_le_serveAll _ calls).trans hRoom)
    rw [← hTable] at hRoom ⊢
    have hNext : (i.serve call).2.Inverse := h.afterCalls [call]
    obtain ⟨hReplies, hFinal⟩ := ih hNext hRoom
    exact ⟨by rw [hReply, hReplies], hFinal⟩

/-- A text in the index stays there under its name, also when there is no room for others. -/
theorem index_intern (hIndex : i.index[text]? = some n) (other : String) :
    (i.intern other).2.index[text]? = some n := by
  unfold intern add
  cases hOther : i.index[other]? with
  | some m => exact hIndex
  | none =>
    have hDiffer : other ≠ text := by
      rintro rfl
      cases hOther.symm.trans hIndex
    dsimp only
    split
    · rw [Std.HashMap.getElem?_insert]
      simpa [hDiffer] using hIndex
    · exact hIndex

theorem index_serveAll (hIndex : i.index[text]? = some n) (calls : List Call) :
    (serveAll serve i calls).2.index[text]? = some n :=
  keeps_serveAll (P := fun i => i.index[text]? = some n)
    (fun _ other hIndex => index_intern hIndex other) hIndex calls

/-- Others may make calls after a text was first looked for and before it is looked for again. The
reply is that to interning the text after all those calls. -/
theorem intern_apart (i : Interner) (text : String) (calls : List Call) :
    (match i.index[text]? with
      | some n => (.ok n, (serveAll serve i calls).2)
      | none => (serveAll serve i calls).2.add text) = (serveAll serve i calls).2.intern text := by
  cases hIndex : i.index[text]? with
  | some n =>
    unfold intern
    rw [index_serveAll hIndex calls]
  | none =>
    unfold intern
    cases hLater : (serveAll serve i calls).2.index[text]? with
    | some m =>
      unfold add
      rw [hLater]
    | none => rfl

/-- A text that the table has under a name is found there after all calls. -/
theorem Inverse.lookup_serveAll (h : i.Inverse) (hHas : i.table.Has text n) (calls : List Call) :
    (serveAll serve i calls).2.lookup n = text :=
  ((h.afterCalls calls).has_iff.mpr (index_serveAll (h.has_iff.mp hHas) calls)).lookup

/-- While fewer texts are interned than there are numbers of 32 bits, index and texts are inverse to
each other. Equal texts have equal names, numbered in the order of their first interning after the
empty text. They are found under their names, also after any further calls, and nothing is found
under others. The same holds for a name table, which replies alike. -/
theorem names_bijective (calls : List Call) (hFew : (interned calls).toFinset.card < UInt32.size) :
    ∃ replies i, serveAll serve .initial calls = (replies, i) ∧
      serveAll NameTable.serve .initial calls = (replies, i.table) ∧ i.Inverse ∧
      Numbers calls replies i.lookup i.size ∧
      ∀ text n, Given calls replies text n → ∀ more,
        (serveAll serve i more).2.lookup n = text ∧
        (serveAll NameTable.serve i.table more).2.lookup n = text := by
  have hNumbers := NameTable.numbers_serveAll calls
  have hRoom : (serveAll NameTable.serve .initial calls).2.size ≤ largestName + 1 := by
    have hLe : ((interned calls).filter (· ≠ "")).toFinset.card ≤ (interned calls).toFinset.card :=
      Finset.card_le_card fun text hMem => by
        rw [List.mem_toFinset] at hMem ⊢
        exact List.mem_of_mem_filter hMem
    have hLess : 1 + ((interned calls).filter (· ≠ "")).toFinset.card ≤ UInt32.size := by omega
    exact hNumbers.size.trans_le hLess
  obtain ⟨hReplies, hTable⟩ := inverse_initial.serveAll_eq hRoom
  have hInverse := inverse_initial.afterCalls calls
  have hSame : serveAll NameTable.serve .initial calls
      = ((serveAll serve .initial calls).1, (serveAll serve .initial calls).2.table) :=
    Prod.ext hReplies.symm hTable.symm
  rw [hSame] at hNumbers
  refine ⟨_, _, rfl, hSame, hInverse, hNumbers, fun text n hGiven more => ?_⟩
  have hHas : (serveAll serve .initial calls).2.table.Has text n := by
    rw [hTable]
    exact NameTable.has_serveAll_iff.mpr (.inr (hReplies ▸ hGiven))
  exact ⟨hInverse.lookup_serveAll hHas more, (hHas.afterCalls more).lookup⟩

/-- Two texts are interned, one of them again after the empty text. -/
theorem names_bijective_twice :
    ∃ i, serveAll serve .initial [.intern "x", .intern "", .lookup ⟨2⟩, .intern "y", .intern "x"]
        = ([.name ⟨1⟩, .name ⟨0⟩, .text "", .name ⟨2⟩, .name ⟨1⟩], i) ∧
      i.index["y"]? = some ⟨2⟩ ∧ i.lookup ⟨2⟩ = "y" ∧ i.size = 3 := by
  have hTable : serveAll NameTable.serve .initial
      [.intern "x", .intern "", .lookup ⟨2⟩, .intern "y", .intern "x"]
      = ([.name ⟨1⟩, .name ⟨0⟩, .text "", .name ⟨2⟩, .name ⟨1⟩], ⟨#["", "x", "y"]⟩) := by
    decide +kernel
  obtain ⟨replies, i, hServe, hSame, hInverse, hNumbers, -⟩ := names_bijective
    [.intern "x", .intern "", .lookup ⟨2⟩, .intern "y", .intern "x"] (by decide)
  obtain ⟨rfl, hTexts⟩ := Prod.mk.inj (hSame.symm.trans hTable)
  have hArray : i.texts = #["", "x", "y"] := congrArg NameTable.texts hTexts
  refine ⟨i, hServe, (hInverse "y" ⟨2⟩).mpr (by rw [hArray]; rfl), ?_, hNumbers.size⟩
  rw [lookup, hArray]
  rfl

end Interner

end FeatherScript
