import JackToolchain.Jack.TokenStream

/-!
# A stream is a position in the list of items

A token stream reads its source lazily.  What it does can be said by the list of the items that are
left: the item in view is the first one, the item behind it the second, and to move on drops one.
The list ends with the end of the source or a lexical error and has neither before its end, so what
is in front of another item is a token of another kind than the end of the source.
-/

namespace JackToolchain.Jack

/-! ### Items of a source -/

namespace Cursor

variable {c d : Cursor}

/-- Whether an item ends the list of items. -/
def EndsItems : Item → Prop
  | .ok t => t.kind = .eos
  | .error _ => True

/-- **Tokens up to an end.**  The items are tokens other than the end of the source, and then the
end of the source or an error; there are no more tokens than characters. -/
theorem items_eq (c : Cursor) :
    ∃ (w : List Token) (last : Item), c.items = w.map .ok ++ [last] ∧ (∀ t ∈ w, t.kind ≠ .eos) ∧
      EndsItems last ∧ w.length ≤ c.rest.length := by
  induction hn : c.rest.length using Nat.strongRecOn generalizing c with
  | ind n ih =>
    subst hn
    cases h : c.next with
    | mk item d =>
      cases item with
      | error e =>
        exact ⟨[], .error e, items_of_next_error h, fun _ ht => absurd ht List.not_mem_nil, trivial,
          Nat.zero_le _⟩
      | ok t =>
        rw [items_of_next_ok h]
        split
        · next ht =>
          exact ⟨[], .ok t, rfl, fun _ ht => absurd ht List.not_mem_nil, ht, Nat.zero_le _⟩
        · next ht =>
          have hless := length_of_next h ht
          obtain ⟨w, last, hitems, hw, hlast, hlength⟩ := ih _ hless d rfl
          refine ⟨t :: w, last, ?_, List.forall_mem_cons.mpr ⟨ht, hw⟩, hlast, ?_⟩
          · rw [hitems]
            rfl
          · rw [List.length_cons]
            omega

theorem length_items_le (c : Cursor) : c.items.length ≤ c.rest.length + 1 := by
  obtain ⟨w, last, hitems, -, -, hlength⟩ := items_eq c
  rw [hitems, List.length_append, List.length_map]
  exact Nat.succ_le_succ hlength

end Cursor

/-- Tokens are what a source consists of if there is no error among its items. -/
theorem tokenize_eq_ok_iff {source : String} {tokens : List Token} :
    tokenize source = .ok tokens ↔ (Cursor.ofSource source).items = tokens.map .ok := by
  unfold tokenize
  generalize (Cursor.ofSource source).items = items
  induction items generalizing tokens with
  | nil =>
    cases tokens with
    | nil => exact ⟨fun _ => rfl, fun _ => rfl⟩
    | cons t tokens => exact ⟨nofun, nofun⟩
  | cons item items ih =>
    rw [List.mapM_cons]
    cases item with
    | error e =>
      refine ⟨nofun, fun h => ?_⟩
      cases tokens <;> cases h
    | ok t =>
      show ((items.mapM id).bind fun ts => Except.ok (t :: ts)) = .ok tokens ↔ _
      cases tokens with
      | nil =>
        refine ⟨fun h => ?_, nofun⟩
        cases hrest : items.mapM id <;> rw [hrest] at h <;> cases h
      | cons t' tokens =>
        rw [List.map_cons, List.cons.injEq, ← ih]
        constructor
        · intro h
          cases hrest : items.mapM id <;> rw [hrest] at h <;> cases h
          exact ⟨rfl, rfl⟩
        · rintro ⟨ht, hrest⟩
          cases ht
          rw [hrest]
          rfl

/-! ### Items of a stream -/

namespace TokenStream

variable {s : TokenStream} {t : Token} {item : Item} {rest : List Item}

@[simp] theorem items_ofSource (source : String) :
    (ofSource source).items = (Cursor.ofSource source).items := rfl

/-- A stream behind the item in view. -/
def advance (s : TokenStream) : TokenStream := s.takeItem.2

/-- A stream whose item in view has been looked at. -/
def looked (s : TokenStream) : TokenStream := s.resetPeek.peekItem.2

/-- A stream whose second item has been looked at. -/
def lookedBehind (s : TokenStream) : TokenStream := s.looked.peekItem.2.resetPeek

/-- To move on drops an item. -/
theorem items_advance_eq_tail (s : TokenStream) : s.advance.items = s.items.tail :=
  s.lookahead.items_next

theorem items_advance (h : s.items = item :: rest) : s.advance.items = rest := by
  rw [items_advance_eq_tail, h]
  rfl

@[simp] theorem items_resetPeek (s : TokenStream) : s.resetPeek.items = s.items := rfl

/-- To look at items drops none. -/
@[simp] theorem items_peekItem (s : TokenStream) : s.peekItem.2.items = s.items :=
  s.lookahead.items_peek

@[simp] theorem items_looked (s : TokenStream) : s.looked.items = s.items := by
  rw [looked, items_peekItem, items_resetPeek]

@[simp] theorem items_lookedBehind (s : TokenStream) : s.lookedBehind.items = s.items := by
  rw [lookedBehind, items_resetPeek, items_peekItem, items_looked]

/-- What is taken is the item in view. -/
theorem fst_takeItem (s : TokenStream) : s.takeItem.1 = s.items.head? := s.lookahead.fst_next

/-- With the peek cursor put back, what one sees is the item in view. -/
theorem fst_peekItem_resetPeek (s : TokenStream) : s.resetPeek.peekItem.1 = s.items.head? := by
  show s.lookahead.resetPeek.peek.1 = s.lookahead.items.head?
  rw [Lookahead.fst_peek, Lookahead.items_resetPeek, Lookahead.peeked_resetPeek,
    List.head?_eq_getElem?]

/-- When the item in view has been looked at, what one sees next is the item behind it. -/
theorem fst_peekItem_looked (h : s.items = item :: rest) : s.looked.peekItem.1 = rest.head? := by
  have hview : s.lookahead.resetPeek.peek.1 = some item := by
    have hfirst := s.fst_peekItem_resetPeek
    rw [h] at hfirst
    exact hfirst
  have hpeeked : s.looked.lookahead.peeked = 1 := by
    show s.lookahead.resetPeek.peek.2.peeked = 1
    rw [Lookahead.peeked_peek, hview]
    rfl
  have hitems : s.looked.lookahead.items = item :: rest := s.items_looked.trans h
  show s.looked.lookahead.peek.1 = rest.head?
  rw [Lookahead.fst_peek, hpeeked, hitems, List.head?_eq_getElem?]
  rfl

/-- Behind the end of the source there is no item. -/
theorem rest_of_eos (h : s.items = .ok t :: rest) (ht : t.kind = .eos) : rest = [] := by
  have hended : Ended s.items := s.lookahead.ended
  rw [h] at hended
  exact hended.1.mpr (beq_iff_eq.mpr ht)

/-- Behind another token there is an item. -/
theorem rest_ne_nil (h : s.items = .ok t :: rest) (ht : t.kind ≠ .eos) : rest ≠ [] := by
  have hended : Ended s.items := s.lookahead.ended
  rw [h] at hended
  intro hrest
  exact ht (beq_iff_eq.mp (hended.1.mp hrest))

/-- The fuel of a source is enough for each of its items. -/
theorem length_items_lt_fuel (source : String) :
    (ofSource source).items.length < (ofSource source).fuel := by
  rw [items_ofSource]
  have hlength := Cursor.length_items_le (Cursor.ofSource source)
  have hrest : (Cursor.ofSource source).rest.length = source.length := String.length_toList
  show _ < source.length + 3
  omega

end TokenStream

/-! ### Reading items -/

namespace Reading

variable {α : Type} {s : TokenStream} {t : Token} {e : LexError} {rest : List Item}

open TokenStream

theorem ofItem_eq_ok {item : Option Item} {s' : TokenStream} (h : ofItem item s = .ok t s') :
    item = some (.ok t) ∧ s' = s := by
  cases item with
  | none => cases h
  | some item =>
    cases item with
    | error e => cases h
    | ok t =>
      cases h
      exact ⟨rfl, rfl⟩

/-- To look at the token in view. -/
theorem peek_eq (s : TokenStream) : peek s = ofItem s.items.head? s.looked := by
  rw [← s.fst_peekItem_resetPeek]
  rfl

/-- To take the token in view. -/
theorem next_eq (s : TokenStream) : next s = ofItem s.items.head? s.advance := by
  rw [← s.fst_takeItem]
  rfl

theorem peek_of_ok (h : s.items = .ok t :: rest) : peek s = .ok t s.looked := by
  rw [peek_eq, h]
  rfl

theorem peek_of_error (h : s.items = .error e :: rest) : peek s = .error (.lexical e) s.looked := by
  rw [peek_eq, h]
  rfl

theorem peek_of_nil (h : s.items = []) : peek s = .error .endOfSource s.looked := by
  rw [peek_eq, h]
  rfl

theorem next_of_ok (h : s.items = .ok t :: rest) : next s = .ok t s.advance := by
  rw [next_eq, h]
  rfl

/-- What a computation does behind one that succeeds. -/
theorem bind_of_ok {β : Type} {p : Reading α} {f : α → Reading β} {a : α} {s' : TokenStream}
    (h : p s = .ok a s') : (p >>= f) s = f a s' := by
  show EStateM.bind p f s = _
  unfold EStateM.bind
  rw [h]

theorem bind_of_error {β : Type} {p : Reading α} {f : α → Reading β} {error : SyntaxError}
    {s' : TokenStream} (h : p s = .error error s') : (p >>= f) s = .error error s' := by
  show EStateM.bind p f s = _
  unfold EStateM.bind
  rw [h]

theorem peekKind_of_ok (h : s.items = .ok t :: rest) : peekKind s = .ok t.kind s.looked :=
  bind_of_ok (peek_of_ok h)

theorem peekKind_of_error (h : s.items = .error e :: rest) :
    peekKind s = .error (.lexical e) s.looked :=
  bind_of_error (peek_of_error h)

/-- What a computation does whose result nobody needs. -/
theorem discard_of_ok {p : Reading α} {a : α} {s' : TokenStream} (h : p s = .ok a s') :
    (discard p) s = .ok () s' := by
  show EStateM.map _ p s = _
  unfold EStateM.map
  rw [h]

theorem discard_of_error {p : Reading α} {error : SyntaxError} {s' : TokenStream}
    (h : p s = .error error s') : (discard p) s = .error error s' := by
  show EStateM.map _ p s = _
  unfold EStateM.map
  rw [h]

/-- To look at the token behind the one in view. -/
theorem peekSecond_eq (h : s.items = .ok t :: rest) :
    peekSecond s = (ofItem rest.head? >>= fun t => pure t.kind) s.lookedBehind := by
  refine (bind_of_ok (discard_of_ok (peek_of_ok h))).trans ?_
  rw [← fst_peekItem_looked h]
  rfl

theorem peekSecond_of_ok {t' : Token} (h : s.items = .ok t :: .ok t' :: rest) :
    peekSecond s = .ok t'.kind s.lookedBehind := by
  rw [peekSecond_eq h]
  rfl

theorem peekSecond_of_error (h : s.items = .ok t :: .error e :: rest) :
    peekSecond s = .error (.lexical e) s.lookedBehind := by
  rw [peekSecond_eq h]
  rfl

end Reading

end JackToolchain.Jack
