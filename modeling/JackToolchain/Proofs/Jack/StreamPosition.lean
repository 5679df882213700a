import JackToolchain.Proofs.Jack.Items

/-!
# Any requests to a stream

A parser asks a stream in a fixed way.  Here a stream is asked for anything in any order: to take
the item in view, to look at it or behind it, to take it on a condition.  A lazy stream with a peek
cursor then answers as a *position* in the list of all items of its source does:

* what one gets is the item at the position (`itemAt`), and `peekSecond` shows the one behind it,
  unless the item at the position is an error itself;
* the position moves on by one where an item is consumed (`positionBehind`), and nowhere else.

An error does not end the conversation; whoever gets one may go on asking.

One request leads from position to position (`moves_read`); that the stream is a position is kept by
it, so a conversation of any length is the one with the position (`converse_eq`).
-/

namespace JackToolchain.Jack

/-! ### Conversations -/

/-- What one can ask a stream for. -/
inductive Request where
  /-- The token in view, consumed. -/
  | next
  /-- The token in view. -/
  | peek
  /-- The kind of the token in view. -/
  | peekKind
  /-- The kind of the token behind the one in view. -/
  | peekSecond
  /-- The token in view, consumed, if it is of the given kind. -/
  | accept (kind : Kind)
  /-- The token in view, consumed, which has to be of the given kind. -/
  | expect (kind : Kind)
  /-- The error that the token in view is none of those described. -/
  | unexpected (expected : String)
deriving Repr, DecidableEq

/-- What one gets. -/
inductive Reply where
  | token (t : Token)
  | kind (k : Kind)
  | accepted (t : Option Token)
deriving Repr, DecidableEq

/-- What a stream does on a request. -/
def Request.read : Request → Reading Reply
  | .next => .token <$> Reading.next
  | .peek => .token <$> Reading.peek
  | .peekKind => .kind <$> Reading.peekKind
  | .peekSecond => .kind <$> Reading.peekSecond
  | .accept kind => .accepted <$> Reading.accept kind
  | .expect kind => .token <$> Reading.expect kind
  | .unexpected expected => Reading.unexpected expected

/-- What a computation answers, and the stream behind it, which there is behind an error as well. -/
def Reading.outcome {α : Type} (p : Reading α) (s : TokenStream) :
    Except SyntaxError α × TokenStream :=
  match p s with
  | .ok a s' => (.ok a, s')
  | .error e s' => (.error e, s')

/-- What a stream answers to one request after another, and the stream behind them. -/
def TokenStream.converse :
    TokenStream → List Request → List (Except SyntaxError Reply) × TokenStream
  | s, [] => ([], s)
  | s, request :: requests =>
    let (answer, s') := request.read.outcome s
    let (answers, s'') := s'.converse requests
    (answer :: answers, s'')

/-! ### Positions -/

section
variable (items : List Item) (n : Nat)

/-- The item at a position, as an answer: a token or the error in its place; behind the last item,
that there is none. -/
def itemAt : Except SyntaxError Token :=
  match items[n]? with
  | some (.ok t) => .ok t
  | some (.error e) => .error (.lexical e)
  | none => .error .endOfSource

/-- The kind of the token at a position. -/
def kindAt : Except SyntaxError Kind := (·.kind) <$> itemAt items n

/-- What a position answers to a request. -/
def answerAt : Request → Except SyntaxError Reply
  | .next | .peek => .token <$> itemAt items n
  | .peekKind => .kind <$> kindAt items n
  | .peekSecond => .kind <$> (itemAt items n >>= fun _ => kindAt items (n + 1))
  | .accept kind =>
    .accepted <$> (itemAt items n >>= fun t => .ok (if t.kind = kind then some t else none))
  | .expect kind => .token <$> (itemAt items n >>= fun t => if t.kind = kind then .ok t
    else .error (.mismatch kind t))
  | .unexpected expected => itemAt items n >>= fun t => .error (.unexpected expected t)

/-- The position behind a request. -/
def positionBehind : Request → Nat
  | .next => if n < items.length then n + 1 else n
  | .accept kind | .expect kind =>
    match itemAt items n with
    | .ok t => if t.kind = kind then n + 1 else n
    | .error _ => n
  | .peek | .peekKind | .peekSecond | .unexpected _ => n

end

/-- What a position answers to one request after another, and the position behind them. -/
def converseAt (items : List Item) : Nat → List Request → List (Except SyntaxError Reply) × Nat
  | n, [] => ([], n)
  | n, request :: requests =>
    let (answers, n') := converseAt items (positionBehind items n request) requests
    (answerAt items n request :: answers, n')

/-! ### Moving a stream -/

/-- A token at a position is one of the items. -/
theorem getElem_of_itemAt {items : List Item} {n : Nat} {t : Token} (h : itemAt items n = .ok t) :
    ∃ hn : n < items.length, items[n] = .ok t := by
  unfold itemAt at h
  split at h
  · next heq =>
    cases h
    exact List.getElem?_eq_some_iff.mp heq
  · cases h
  · cases h

/-- A computation leads a stream from a position to another one, with an answer. -/
def Reading.Moves {α : Type} (items : List Item) (p : Reading α) (n m : Nat)
    (answer : Except SyntaxError α) : Prop :=
  ∀ s : TokenStream, s.items = items.drop n →
    (p.outcome s).1 = answer ∧ (p.outcome s).2.items = items.drop m

namespace Reading

variable {α β : Type} {items : List Item} {n m k : Nat} {p : Reading α} {t : Token}

theorem outcome_of_ok {s s' : TokenStream} {a : α} (h : p s = .ok a s') :
    p.outcome s = (.ok a, s') := by
  rw [outcome, h]

theorem outcome_of_error {s s' : TokenStream} {e : SyntaxError} (h : p s = .error e s') :
    p.outcome s = (.error e, s') := by
  rw [outcome, h]

theorem Moves.pure (a : α) : Moves items (Pure.pure a) n n (.ok a) := fun _ hs => ⟨rfl, hs⟩

theorem Moves.throw (e : SyntaxError) :
    Moves items (MonadExcept.throw e : Reading α) n n (.error e) :=
  fun _ hs => ⟨rfl, hs⟩

/-- Computations in a row, the second of which is reached. -/
theorem Moves.bind {f : α → Reading β} {a : α} {answer : Except SyntaxError β}
    (hp : Moves items p n m (.ok a)) (hf : Moves items (f a) m k answer) :
    Moves items (p >>= f) n k answer := by
  intro s hs
  obtain ⟨hanswer, hitems⟩ := hp s hs
  cases hr : p s with
  | error e s' =>
    rw [outcome_of_error hr] at hanswer
    cases hanswer
  | ok a' s' =>
    rw [outcome_of_ok hr] at hanswer hitems
    cases hanswer
    unfold outcome
    rw [bind_of_ok hr]
    exact hf s' hitems

/-- An error ends a row of computations. -/
theorem Moves.bind_error {f : α → Reading β} {e : SyntaxError} (hp : Moves items p n m (.error e)) :
    Moves items (p >>= f) n m (.error e) := by
  intro s hs
  obtain ⟨hanswer, hitems⟩ := hp s hs
  cases hr : p s with
  | ok a s' =>
    rw [outcome_of_ok hr] at hanswer
    cases hanswer
  | error e' s' =>
    rw [outcome_of_error hr] at hanswer hitems
    cases hanswer
    rw [outcome_of_error (bind_of_error hr)]
    exact ⟨rfl, hitems⟩

theorem Moves.bind_answer {f : α → Reading β} {g : α → Except SyntaxError β}
    {answer : Except SyntaxError α} (hp : Moves items p n m answer)
    (hf : ∀ a, Moves items (f a) m m (g a)) : Moves items (p >>= f) n m (answer >>= g) := by
  cases answer with
  | error e => exact hp.bind_error
  | ok a => exact hp.bind (hf a)

theorem Moves.map {answer : Except SyntaxError α} (hp : Moves items p n m answer) (f : α → β) :
    Moves items (f <$> p) n m (f <$> answer) := by
  rw [map_eq_pure_bind, map_eq_pure_bind]
  exact hp.bind_answer fun a => .pure (f a)

/-! ### Single requests -/

/-- An item is an answer. -/
theorem outcome_ofItem (items : List Item) (n : Nat) (s : TokenStream) :
    (ofItem items[n]?).outcome s = (itemAt items n, s) := by
  unfold itemAt
  cases items[n]? with
  | none => rfl
  | some item => cases item <;> rfl

/-- To look at the item in view does not move a stream. -/
theorem moves_peek (items : List Item) (n : Nat) : Moves items peek n n (itemAt items n) := by
  intro s hs
  have hpeek : peek.outcome s = (itemAt items n, s.looked) := by
    unfold outcome
    rw [peek_eq, hs, List.head?_drop]
    exact outcome_ofItem items n s.looked
  rw [hpeek]
  exact ⟨rfl, s.items_looked.trans hs⟩

theorem moves_peekKind (items : List Item) (n : Nat) :
    Moves items peekKind n n (kindAt items n) := by
  unfold kindAt
  rw [map_eq_pure_bind]
  exact (moves_peek items n).bind_answer fun t => .pure t.kind

/-- To look behind the item in view does not move a stream, and an error of the first item hides the
second. -/
theorem moves_peekSecond (items : List Item) (n : Nat) :
    Moves items peekSecond n n (itemAt items n >>= fun _ => kindAt items (n + 1)) := by
  have hpeek := (moves_peek items n).map (Function.const Token ())
  cases hfirst : itemAt items n with
  | error e =>
    rw [hfirst] at hpeek
    exact hpeek.bind_error
  | ok t =>
    intro s hs
    obtain ⟨hn, hitem⟩ := getElem_of_itemAt hfirst
    have hdrop : s.items = .ok t :: items.drop (n + 1) := by
      rw [hs, List.drop_eq_getElem_cons hn, hitem]
    have hbehind : Moves items (ofItem items[n + 1]?) n n (itemAt items (n + 1)) := by
      intro s' hs'
      rw [outcome_ofItem]
      exact ⟨rfl, hs'⟩
    have hmoves :=
      (hbehind.bind_answer fun t => .pure t.kind) s.lookedBehind (s.items_lookedBehind.trans hs)
    unfold outcome at hmoves ⊢
    rw [peekSecond_eq hdrop, List.head?_drop]
    exact hmoves

/-- To take the item in view moves a stream by one, if an item is left. -/
theorem moves_next (items : List Item) (n : Nat) :
    Moves items next n (if n < items.length then n + 1 else n) (itemAt items n) := by
  intro s hs
  have hnext : next.outcome s = (itemAt items n, s.advance) := by
    unfold outcome
    rw [next_eq, hs, List.head?_drop]
    exact outcome_ofItem items n s.advance
  rw [hnext]
  refine ⟨rfl, ?_⟩
  rw [TokenStream.items_advance_eq_tail, hs, List.tail_drop]
  by_cases hn : n < items.length
  · rw [if_pos hn]
  · rw [if_neg hn, List.drop_eq_nil_of_le (by omega), List.drop_eq_nil_of_le (by omega)]

/-- A token that is at a position is taken by a step. -/
theorem moves_next_of_ok (h : itemAt items n = .ok t) : Moves items next n (n + 1) (.ok t) := by
  obtain ⟨hn, -⟩ := getElem_of_itemAt h
  have hnext := moves_next items n
  rwa [if_pos hn, h] at hnext

/-- A stream moves by one where a token is accepted. -/
theorem moves_accept (items : List Item) (n : Nat) (kind : Kind) :
    Moves items (accept kind) n (positionBehind items n (.accept kind))
      (itemAt items n >>= fun t => .ok (if t.kind = kind then some t else none)) := by
  have hkind := moves_peekKind items n
  unfold kindAt at hkind
  unfold accept positionBehind
  cases hitem : itemAt items n with
  | error e =>
    rw [hitem] at hkind
    exact hkind.bind_error
  | ok t =>
    rw [hitem] at hkind
    refine hkind.bind ?_
    show Moves items _ n (if t.kind = kind then n + 1
      else n) (.ok (if t.kind = kind then some t else none))
    by_cases ht : t.kind = kind
    · rw [if_pos ht, if_pos ht, if_pos ht]
      exact (moves_next_of_ok hitem).map some
    · rw [if_neg ht, if_neg ht, if_neg ht]
      exact .pure none

/-- A stream moves by one where an expected token is found. -/
theorem moves_expect (items : List Item) (n : Nat) (kind : Kind) :
    Moves items (expect kind) n (positionBehind items n (.expect kind))
      (itemAt items n >>= fun t => if t.kind = kind then .ok t else .error (.mismatch kind t)) := by
  have hpeek := moves_peek items n
  unfold expect positionBehind
  cases hitem : itemAt items n with
  | error e =>
    rw [hitem] at hpeek
    exact hpeek.bind_error
  | ok t =>
    rw [hitem] at hpeek
    refine hpeek.bind ?_
    show Moves items _ n (if t.kind = kind then n + 1 else n) (if t.kind = kind then .ok t else _)
    by_cases ht : t.kind = kind
    · rw [if_pos ht, if_pos ht, if_pos ht]
      exact moves_next_of_ok hitem
    · rw [if_neg ht, if_neg ht, if_neg ht]
      exact .throw (.mismatch kind t)

/-- To make an error of the item in view does not move a stream. -/
theorem moves_unexpected (items : List Item) (n : Nat) (expected : String) :
    Moves items (unexpected expected : Reading α) n n
      (itemAt items n >>= fun t => .error (.unexpected expected t)) :=
  (moves_peek items n).bind_answer fun t => .throw (.unexpected expected t)

/-- **One request.**  A stream at a position answers as the position does, and is then at the
position behind the request. -/
theorem moves_read (items : List Item) (n : Nat) (request : Request) :
    Moves items request.read n (positionBehind items n request) (answerAt items n request) := by
  cases request with
  | next => exact (moves_next items n).map Reply.token
  | peek => exact (moves_peek items n).map Reply.token
  | peekKind => exact (moves_peekKind items n).map Reply.kind
  | peekSecond => exact (moves_peekSecond items n).map Reply.kind
  | accept kind => exact (moves_accept items n kind).map Reply.accepted
  | expect kind => exact (moves_expect items n kind).map Reply.token
  | unexpected expected => exact moves_unexpected items n expected

end Reading

/-! ### Whole conversations -/

/-- A stream that is at a position stays at one, whatever it is asked for. -/
theorem TokenStream.converse_of_items {items : List Item} {n : Nat} {s : TokenStream}
    (hs : s.items = items.drop n) (requests : List Request) :
    (s.converse requests).1 = (converseAt items n requests).1 ∧
      (s.converse requests).2.items = items.drop (converseAt items n requests).2 := by
  induction requests generalizing s n with
  | nil => exact ⟨rfl, hs⟩
  | cons request requests ih =>
    obtain ⟨hanswer, hitems⟩ := Reading.moves_read items n request s hs
    obtain ⟨hanswers, hleft⟩ := ih hitems
    exact ⟨List.cons_eq_cons.mpr ⟨hanswer, hanswers⟩, hleft⟩

/-- **A lazy stream is a position.**  Whatever is asked of the stream of a source, one request after
another, the answers are those of a position that starts in front of all items of the source, and
the items that are left in the end are those behind the position. -/
theorem converse_eq (source : String) (requests : List Request) :
    ((TokenStream.ofSource source).converse requests).1 =
        (converseAt (Cursor.ofSource source).items 0 requests).1 ∧
      ((TokenStream.ofSource source).converse requests).2.items =
        (Cursor.ofSource source).items.drop
          (converseAt (Cursor.ofSource source).items 0 requests).2 :=
  TokenStream.converse_of_items (TokenStream.items_ofSource source) requests

end JackToolchain.Jack
