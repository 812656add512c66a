import FeatherScript.Proofs.Grammar.Keeping

/-!
# What readings leave

What holds after a reading may depend on whether it succeeded. `Reply.Leaves` says of a reply what
it leaves in either case; a reading made of several leaves what its last part does, or what the part
leaves that fails.

* `Reply.Leaves`: the properties of a result with its state, and of an error with its state.
* `Leaves.andThen`, `Leaves.bind`, `Leaves.orRecover`: one reading after another.
* `State.leaves_takeOr`, `State.leaves_build`: the steps of readings.
-/

namespace FeatherScript.Grammar

namespace Reply

variable {α β : Type} {s : State} {strict : Bool} {P : α → State → Prop} {Q : β → State → Prop}
  {F : ParseError → State → Prop}

/-- A reply reads something and leaves a state, or fails and leaves one. -/
structure Leaves (r : Reply strict s α) (Q : α → State → Prop) (F : ParseError → State → Prop) :
    Prop where
  ok : ∀ {a}, r.result = .ok a → Q a r.state
  error : ∀ {e}, r.result = .error e → F e r.state

theorem leaves_done {a : α} (h : P a s) : (done a : Reply false s α).Leaves P F :=
  ⟨fun hOk => by cases hOk; exact h, nofun⟩

theorem leaves_fail {expected : Expectation} (h : F ⟨expected, s.current⟩ s) :
    (fail expected : Reply strict s α).Leaves P F :=
  ⟨nofun, fun hError => by cases hError; exact h⟩

namespace Leaves

theorem relax {r : Reply true s α} (h : r.Leaves P F) : r.relax.Leaves P F := ⟨h.ok, h.error⟩

/-- Whatever a reading leaves, it has advanced. -/
theorem advances {r : Reply strict s α} (h : r.Leaves P F) :
    r.Leaves (fun a t => P a t ∧ s.Advances t) (fun e t => F e t ∧ s.Advances t) :=
  ⟨fun hOk => ⟨h.ok hOk, r.advances⟩, fun hError => ⟨h.error hError, r.advances⟩⟩

theorem andThen {r : Reply true s α}
    {next : α → (t : State) → t.left < s.left → Reply strict t β} (h : r.Leaves P F)
    (hNext : ∀ a t hLeft, P a t → (next a t hLeft).Leaves Q F) : (r.andThen next).Leaves Q F := by
  cases hResult : r.result with
  | error e =>
    obtain ⟨hWhole, hState⟩ : (r.andThen next).result = .error e ∧
        (r.andThen next).state = r.state := andThen_of_error hResult
    refine ⟨fun hOk => (nomatch hWhole.symm.trans hOk), fun hError => ?_⟩
    cases hWhole.symm.trans hError
    exact hState ▸ h.error hResult
  | ok a =>
    obtain ⟨hLeft, hWhole, hState⟩ : ∃ hLeft,
        (r.andThen next).result = (next a r.state hLeft).result ∧
          (r.andThen next).state = (next a r.state hLeft).state := andThen_of_ok hResult
    have hAfter := hNext a r.state hLeft (h.ok hResult)
    exact ⟨fun hOk => hState ▸ hAfter.ok (hWhole ▸ hOk),
      fun hError => hState ▸ hAfter.error (hWhole ▸ hError)⟩

theorem bind {r : Reply false s α}
    {next : α → (t : State) → t.left ≤ s.left → Reply strict t β} (h : r.Leaves P F)
    (hNext : ∀ a t hLeft, P a t → (next a t hLeft).Leaves Q F) : (r.bind next).Leaves Q F := by
  cases hResult : r.result with
  | error e =>
    obtain ⟨hWhole, hState⟩ : (r.bind next).result = .error e ∧
        (r.bind next).state = r.state := bind_of_error hResult
    refine ⟨fun hOk => (nomatch hWhole.symm.trans hOk), fun hError => ?_⟩
    cases hWhole.symm.trans hError
    exact hState ▸ h.error hResult
  | ok a =>
    obtain ⟨hWhole, hState⟩ : (r.bind next).result = (next a r.state r.left_le).result ∧
        (r.bind next).state = (next a r.state r.left_le).state := bind_of_ok hResult
    have hAfter := hNext a r.state r.left_le (h.ok hResult)
    exact ⟨fun hOk => hState ▸ hAfter.ok (hWhole ▸ hOk),
      fun hError => hState ▸ hAfter.error (hWhole ▸ hError)⟩

/-- After recovery there is no error. -/
theorem orRecover {r : Reply true s α} {recover : State → ParseError → State}
    {hRecover : ∀ (t : State) e, (t.record e).Advances (recover t e)}
    {hLess : ∀ (t : State) e, t.rest = s.rest → (recover t e).left < t.left}
    {R : Option α → State → Prop} {G : ParseError → State → Prop} (h : r.Leaves P F)
    (hOk : ∀ a t, P a t → R (some a) t) (hError : ∀ e t, F e t → R none (recover t e)) :
    (r.orRecover recover hRecover hLess).Leaves R G := by
  cases hResult : r.result with
  | error e =>
    obtain ⟨hWhole, hState⟩ : (r.orRecover recover hRecover hLess).result = .ok none ∧
        (r.orRecover recover hRecover hLess).state = recover r.state e :=
      orRecover_of_error hResult
    refine ⟨fun hOk => ?_, fun hFailed => nomatch hWhole.symm.trans hFailed⟩
    cases hWhole.symm.trans hOk
    exact hState ▸ hError e r.state (h.error hResult)
  | ok a =>
    obtain ⟨hWhole, hState⟩ : (r.orRecover recover hRecover hLess).result = .ok (some a) ∧
        (r.orRecover recover hRecover hLess).state = r.state := orRecover_of_ok hResult
    refine ⟨fun hFound => ?_, fun hFailed => nomatch hWhole.symm.trans hFailed⟩
    cases hWhole.symm.trans hFound
    exact hState ▸ hOk a r.state (h.ok hResult)

end Leaves

end Reply

namespace State

open Reply

variable {α β : Type} {s : State} {strict inner : Bool} {Q : β → State → Prop}
  {F : ParseError → State → Prop}

theorem leaves_takeOr {read : TokenKind → Option α} {otherwise : Reply strict s β}
    {next : α → Span → (u : State) → u.left < s.left → Reply inner u β}
    (hOtherwise : otherwise.Leaves Q F)
    (hNext : ∀ a kind span u hLeft, kind ≠ .endOfFile → s.Takes kind span u → read kind = some a →
      (next a span u hLeft).Leaves Q F) : (s.takeOr read otherwise next).Leaves Q F := by
  rcases takeOr_cases read otherwise next with
    ⟨a, kind, span, u, hLeft, hMore, hTakes, hSome, hResult, hState⟩ | hSame
  · have hAfter := hNext a kind span u hLeft hMore hTakes hSome
    exact ⟨fun hOk => hState ▸ hAfter.ok (hResult ▸ hOk),
      fun hError => hState ▸ hAfter.error (hResult ▸ hError)⟩
  · rw [hSame]
    exact hOtherwise

theorem leaves_eatOr {sign : Symbol} {otherwise : Reply strict s β}
    {next : Span → (u : State) → u.left < s.left → Reply inner u β}
    (hOtherwise : otherwise.Leaves Q F)
    (hNext : ∀ span u hLeft, s.Takes (.symbol sign) span u → (next span u hLeft).Leaves Q F) :
    (s.eatOr sign otherwise next).Leaves Q F :=
  leaves_takeOr hOtherwise fun _ _ span u hLeft _ hTakes hRead =>
    hNext span u hLeft (symbolOf?_eq_some_iff.mp hRead ▸ hTakes)

theorem leaves_build {f : NodeTable → α × NodeTable} {hGrows : ∀ t : NodeTable, t.Grows (f t).2}
    {P : α → State → Prop} (h : P (f s.table).1 { s with table := (f s.table).2 }) :
    (s.build f hGrows).Leaves P F :=
  ⟨fun hOk => by cases hOk; exact h, nofun⟩

end State

end FeatherScript.Grammar
