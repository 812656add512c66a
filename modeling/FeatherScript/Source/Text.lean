/-!
# Text cut at byte offsets

Positions in a source text are byte offsets into its UTF-8 encoding, while the text itself is a list
of characters. An offset is a *boundary* when a character starts there or the text ends there; text
can be cut only at boundaries.

* `byteLength` is the length of the encoding.
* `dropBytes?` and `takeBytes?` cut at a boundary and answer `none` anywhere else.
* `slice?` is the text between two boundaries in order.
-/

namespace FeatherScript.Text

/-- The number of bytes in the UTF-8 encoding of a text. -/
def byteLength : List Char → Nat
  | [] => 0
  | c :: cs => c.utf8Size + byteLength cs

/-- The text from the boundary `n` on, if `n` is one. -/
def dropBytes? : Nat → List Char → Option (List Char)
  | 0, cs => some cs
  | _ + 1, [] => none
  | n + 1, c :: cs => if c.utf8Size ≤ n + 1 then dropBytes? (n + 1 - c.utf8Size) cs else none

/-- The text before the boundary `n`, if `n` is one. -/
def takeBytes? : Nat → List Char → Option (List Char)
  | 0, _ => some []
  | _ + 1, [] => none
  | n + 1, c :: cs =>
    if c.utf8Size ≤ n + 1 then (takeBytes? (n + 1 - c.utf8Size) cs).map (c :: ·) else none

/-- The text between two boundaries, if they are boundaries and in order. -/
def slice? (start stop : Nat) (cs : List Char) : Option (List Char) :=
  if start ≤ stop then (dropBytes? start cs).bind (takeBytes? (stop - start)) else none

/-- Whether a byte offset is a boundary of the text. -/
def IsBoundary (cs : List Char) (n : Nat) : Prop := (dropBytes? n cs).isSome

instance (cs : List Char) (n : Nat) : Decidable (IsBoundary cs n) :=
  inferInstanceAs (Decidable ((dropBytes? n cs).isSome = true))

/-- The text without those last characters that satisfy `p`. -/
def trimEnd (p : Char → Bool) (cs : List Char) : List Char := (cs.reverse.dropWhile p).reverse

/-! ## Small laws -/

@[simp] theorem byteLength_nil : byteLength [] = 0 := rfl

@[simp] theorem byteLength_cons (c : Char) (cs : List Char) :
    byteLength (c :: cs) = c.utf8Size + byteLength cs := rfl

@[simp] theorem byteLength_append (xs ys : List Char) :
    byteLength (xs ++ ys) = byteLength xs + byteLength ys := by
  induction xs with
  | nil => simp
  | cons c cs ih => simp [ih, Nat.add_assoc]

/-- The length in bytes is that of the string made of the text. -/
theorem byteLength_eq_utf8ByteSize (cs : List Char) :
    byteLength cs = (String.ofList cs).utf8ByteSize := by
  induction cs with
  | nil => rfl
  | cons c cs ih =>
    have hSplit : String.ofList (c :: cs) = String.singleton c ++ String.ofList cs := by
      rw [String.singleton_eq_ofList, ← String.ofList_append]
      rfl
    rw [byteLength_cons, ih, hSplit, String.utf8ByteSize_append, String.utf8ByteSize_singleton]

@[simp] theorem dropBytes?_zero (cs : List Char) : dropBytes? 0 cs = some cs := by
  cases cs <;> rfl

@[simp] theorem takeBytes?_zero (cs : List Char) : takeBytes? 0 cs = some [] := by
  cases cs <;> rfl

/-- The end of a first part is a boundary, and the second part starts there. -/
theorem dropBytes?_append (xs ys : List Char) :
    dropBytes? (byteLength xs) (xs ++ ys) = some ys := by
  induction xs with
  | nil => simp
  | cons c cs ih =>
    have hPos := c.utf8Size_pos
    obtain ⟨k, hk⟩ : ∃ k, byteLength (c :: cs) = k + 1 :=
      ⟨byteLength (c :: cs) - 1, by simp only [byteLength_cons]; omega⟩
    have hRest : k + 1 - c.utf8Size = byteLength cs := by
      simp only [byteLength_cons] at hk; omega
    rw [hk, List.cons_append, dropBytes?, if_pos (by simp only [byteLength_cons] at hk; omega),
      hRest, ih]

/-- The text before the end of a first part is that part. -/
theorem takeBytes?_append (xs ys : List Char) :
    takeBytes? (byteLength xs) (xs ++ ys) = some xs := by
  induction xs with
  | nil => simp
  | cons c cs ih =>
    have hPos := c.utf8Size_pos
    obtain ⟨k, hk⟩ : ∃ k, byteLength (c :: cs) = k + 1 :=
      ⟨byteLength (c :: cs) - 1, by simp only [byteLength_cons]; omega⟩
    have hRest : k + 1 - c.utf8Size = byteLength cs := by
      simp only [byteLength_cons] at hk; omega
    rw [hk, List.cons_append, takeBytes?, if_pos (by simp only [byteLength_cons] at hk; omega),
      hRest, ih, Option.map_some]

/-- The text between the ends of a first and of a second part is the second part. -/
theorem slice?_append (xs ys zs : List Char) :
    slice? (byteLength xs) (byteLength xs + byteLength ys) (xs ++ (ys ++ zs)) = some ys := by
  rw [slice?, if_pos (Nat.le_add_right _ _), dropBytes?_append, Option.bind_some,
    Nat.add_sub_cancel_left, takeBytes?_append]

end FeatherScript.Text
