/-!
# Spans of source text

A span is a stretch of the source given by two byte offsets, the second one exclusive. Spans of the
language's own constructs are ordered and lie inside the source; a span handed in from outside may
be reversed or lie past the end, and every function here is defined on those as well.

* `Span.merge` covers both of its arguments, whatever their order.
* `Span.ofRange?` accepts exactly the ranges whose ends fit in 32 bits.
-/

namespace FeatherScript

/-- The bytes from `start` up to, but not including, `stop`. -/
structure Span where
  start : Nat
  stop : Nat
deriving DecidableEq, Inhabited

namespace Span

/-- The span of the empty text at the very beginning, used where no place is known. -/
def origin : Span := ⟨0, 0⟩

/-- The empty span at one offset. -/
def point (offset : Nat) : Span := ⟨offset, offset⟩

/-- The smallest span that covers two spans and whatever lies between them. -/
def merge (a b : Span) : Span := ⟨min a.start b.start, max a.stop b.stop⟩

/-- A span is empty when its two ends coincide; a reversed span is not. -/
def isEmpty (s : Span) : Bool := s.start == s.stop

def contains (s : Span) (offset : Nat) : Bool := s.start ≤ offset && offset < s.stop

/-- The number of bytes covered; a reversed span has none to give. -/
def length? (s : Span) : Option Nat := if s.start ≤ s.stop then some (s.stop - s.start) else none

/-- The written form of a span, its two ends with two dots between. -/
def text (s : Span) : String := s!"{s.start}..{s.stop}"

/-! ## Ranges of offsets -/

/-- The largest offset a span may hold. -/
def maxOffset : Nat := 4294967295

/-- Why a range of offsets is no span. -/
inductive RangeError
  | startTooLarge (offset : Nat)
  | endTooLarge (offset : Nat)
deriving DecidableEq

def RangeError.message : RangeError → String
  | .startTooLarge offset => s!"span start {offset} exceeds u32::MAX ({maxOffset})"
  | .endTooLarge offset => s!"span end {offset} exceeds u32::MAX ({maxOffset})"

/-- The span of a range whose ends both fit; the start is examined first. -/
def ofRange? (start stop : Nat) : Except RangeError Span :=
  if maxOffset < start then .error (.startTooLarge start)
  else if maxOffset < stop then .error (.endTooLarge stop)
  else .ok ⟨start, stop⟩

end Span

end FeatherScript
