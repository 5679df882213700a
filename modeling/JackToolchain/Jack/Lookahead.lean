import JackToolchain.Jack.Lexer

/-!
# Looking ahead

The items of a source are read one by one and no sooner than they are needed.  An `ItemReader` reads
the next item, and stops for good behind the end-of-source token and behind a lexical error.

A `Lookahead` keeps the items that it has read from a reader until they are consumed, so that one
can look at items in front of consuming them.  It has a *peek cursor*: to peek shows the item under
the peek cursor and moves the peek cursor on, and to peek again shows the item behind it.  Consuming
an item puts the peek cursor back to the first item that is left, and so does `Lookahead.resetPeek`.

The view of both is the list `items` of the items that are left; it does not depend on how many of
them have been read already.
-/

namespace JackToolchain.Jack

/-! ### Last items -/

/-- Whether an item is the last one of its source. -/
def Item.isLast : Item → Bool
  | .ok t => t.kind == .eos
  | .error _ => true

/-- A list of items that ends where an item is the last one of its source, and nowhere else. -/
def Ended : List Item → Prop
  | [] => True
  | item :: rest => (rest = [] ↔ Item.isLast item = true) ∧ Ended rest

theorem Ended.tail {items : List Item} (h : Ended items) : Ended items.tail := by
  cases items with
  | nil => trivial
  | cons item rest => exact h.2

namespace Cursor

/-- The items from a place on. -/
theorem items_eq_next (c : Cursor) :
    c.items = c.next.1 :: (if Item.isLast c.next.1 then [] else c.next.2.items) := by
  cases h : c.next with
  | mk item d =>
    cases item with
    | error e => exact items_of_next_error h
    | ok t =>
      rw [items_of_next_ok h]
      simp only [Item.isLast, beq_iff_eq]

theorem items_ne_nil (c : Cursor) : c.items ≠ [] := by
  rw [items_eq_next]
  exact List.cons_ne_nil _ _

theorem ended_items (c : Cursor) : Ended c.items := by
  induction hn : c.rest.length using Nat.strongRecOn generalizing c with
  | ind n ih =>
    subst hn
    rw [items_eq_next]
    by_cases hlast : Item.isLast c.next.1 = true
    · rw [if_pos hlast]
      exact ⟨iff_of_true rfl hlast, trivial⟩
    · rw [if_neg hlast]
      refine ⟨iff_of_false (items_ne_nil _) hlast, ih _ ?_ _ rfl⟩
      -- An item that is not the last one is a token, which has characters.
      cases h : c.next with
      | mk item d =>
        rw [h] at hlast
        cases item with
        | error e => exact absurd rfl hlast
        | ok t => exact length_of_next h fun ht => hlast (beq_iff_eq.mpr ht)

end Cursor

/-! ### Readers -/

/-- A reader of the items of a source. -/
structure ItemReader where
  /-- The place behind the items that have been read. -/
  cursor : Cursor
  /-- Whether the last one has been read. -/
  done : Bool
deriving Repr

namespace ItemReader

/-- The reader of a source. -/
def ofSource (source : String) : ItemReader := ⟨.ofSource source, false⟩

/-- The next item, if the last one has not been read. -/
def next (r : ItemReader) : Option Item × ItemReader :=
  if r.done then (none, r)
  else
    let (item, cursor) := r.cursor.next
    (some item, ⟨cursor, Item.isLast item⟩)

/-- The items that are left. -/
def items (r : ItemReader) : List Item := if r.done then [] else r.cursor.items

theorem toList_next_append (r : ItemReader) : r.next.1.toList ++ r.next.2.items = r.items := by
  obtain ⟨cursor, done⟩ := r
  cases done with
  | true => rfl
  | false => exact cursor.items_eq_next.symm

theorem fst_next (r : ItemReader) : r.next.1 = r.items.head? := by
  obtain ⟨cursor, done⟩ := r
  cases done with
  | true => rfl
  | false =>
    show some cursor.next.1 = cursor.items.head?
    rw [cursor.items_eq_next]
    rfl

theorem items_next (r : ItemReader) : r.next.2.items = r.items.tail := by
  rw [← r.toList_next_append]
  cases h : r.next.1 with
  | some item => rfl
  | none =>
    -- Where there is no next item, none is left.
    rw [fst_next, List.head?_eq_none_iff] at h
    have happend := r.toList_next_append
    rw [h, List.append_eq_nil_iff] at happend
    rw [happend.2]
    rfl

theorem ended_items (r : ItemReader) : Ended r.items := by
  unfold items
  split
  · trivial
  · exact r.cursor.ended_items

end ItemReader

/-! ### Looking ahead -/

/-- Items that one can look at without consuming them. -/
structure Lookahead where
  /-- The items that have been read and not consumed, in order. -/
  ahead : List Item
  /-- The reader of the items behind them. -/
  reader : ItemReader
  /-- How many of the items the peek cursor has passed. -/
  peeked : Nat
  peeked_le : peeked ≤ ahead.length
  ended : Ended (ahead ++ reader.items)

namespace Lookahead

/-- The items of a source, none of which has been read. -/
def ofSource (source : String) : Lookahead where
  ahead := []
  reader := .ofSource source
  peeked := 0
  peeked_le := Nat.le_refl _
  ended := (ItemReader.ofSource source).ended_items

/-- The items that are left. -/
def items (l : Lookahead) : List Item := l.ahead ++ l.reader.items

/-- Puts the peek cursor back. -/
def resetPeek (l : Lookahead) : Lookahead := { l with peeked := 0, peeked_le := Nat.zero_le _ }

/-- The next item, which is consumed, if there is one. -/
def next : Lookahead → Option Item × Lookahead
  | ⟨item :: ahead, reader, _, _, ended⟩ => (some item, ⟨ahead, reader, 0, Nat.zero_le _, ended.2⟩)
  | ⟨[], reader, _, _, ended⟩ =>
    (reader.next.1, ⟨[], reader.next.2, 0, Nat.le_refl _, reader.items_next ▸ ended.tail⟩)

/-- Reads an item, which is kept. -/
def readAhead (l : Lookahead) : Lookahead where
  ahead := l.ahead ++ l.reader.next.1.toList
  reader := l.reader.next.2
  peeked := l.peeked
  peeked_le := Nat.le_trans l.peeked_le (by rw [List.length_append]; exact Nat.le_add_right _ _)
  ended := by
    rw [List.append_assoc, l.reader.toList_next_append]
    exact l.ended

/-- The item under the peek cursor, which moves on, if that item has been read. -/
def peekRead (l : Lookahead) : Option Item × Lookahead :=
  if h : l.peeked < l.ahead.length
    then (some l.ahead[l.peeked], { l with peeked := l.peeked + 1, peeked_le := h })
  else (none, l)

/-- The item under the peek cursor, which moves on, if there is one.  Where the peek cursor has
passed all items that have been read, another one is read first. -/
def peek (l : Lookahead) : Option Item × Lookahead :=
  if l.peeked < l.ahead.length then l.peekRead else l.readAhead.peekRead

@[simp] theorem items_ofSource (source : String) :
    (ofSource source).items = (Cursor.ofSource source).items := rfl

@[simp] theorem items_resetPeek (l : Lookahead) : l.resetPeek.items = l.items := rfl

@[simp] theorem peeked_resetPeek (l : Lookahead) : l.resetPeek.peeked = 0 := rfl

@[simp] theorem items_readAhead (l : Lookahead) : l.readAhead.items = l.items := by
  unfold items readAhead
  rw [List.append_assoc, l.reader.toList_next_append]

theorem fst_next (l : Lookahead) : l.next.1 = l.items.head? := by
  obtain ⟨ahead, reader, peeked, -, -⟩ := l
  cases ahead with
  | nil => exact reader.fst_next
  | cons item ahead => rfl

@[simp] theorem items_next (l : Lookahead) : l.next.2.items = l.items.tail := by
  obtain ⟨ahead, reader, peeked, -, -⟩ := l
  cases ahead with
  | nil => exact reader.items_next
  | cons item ahead => rfl

@[simp] theorem items_peekRead (l : Lookahead) : l.peekRead.2.items = l.items := by
  unfold peekRead
  split <;> rfl

theorem fst_peekRead (l : Lookahead) : l.peekRead.1 = l.ahead[l.peeked]? := by
  unfold peekRead
  split
  · next h => rw [List.getElem?_eq_getElem h]
  · next h => rw [List.getElem?_eq_none (Nat.le_of_not_lt h)]

theorem peeked_peekRead (l : Lookahead) :
    l.peekRead.2.peeked = if l.peekRead.1.isSome then l.peeked + 1 else l.peeked := by
  unfold peekRead
  split <;> rfl

/-- To peek moves nothing but the peek cursor. -/
@[simp] theorem items_peek (l : Lookahead) : l.peek.2.items = l.items := by
  unfold peek
  split
  · exact l.items_peekRead
  · rw [items_peekRead, items_readAhead]

/-- To peek shows the item under the peek cursor. -/
theorem fst_peek (l : Lookahead) : l.peek.1 = l.items[l.peeked]? := by
  have hle := l.peeked_le
  unfold peek
  by_cases hread : l.peeked < l.ahead.length
  · rw [if_pos hread, fst_peekRead, items, List.getElem?_append_left hread]
  · -- The peek cursor has passed all items that have been read, so it is at the next one of the
    -- reader.
    have heq : l.peeked = l.ahead.length := by omega
    have hitem (items : List Item) : (l.ahead ++ items)[l.peeked]? = items.head? := by
      rw [List.getElem?_append_right (Nat.le_of_not_lt hread), heq,
        Nat.sub_self, ← List.head?_eq_getElem?]
    rw [if_neg hread, fst_peekRead, items, hitem, ← l.reader.fst_next]
    refine (hitem _).trans ?_
    cases l.reader.next.1 <;> rfl

/-- The peek cursor moves on where it shows an item. -/
theorem peeked_peek (l : Lookahead) : l.peek.2.peeked = if l.peek.1.isSome then l.peeked + 1
    else l.peeked := by
  unfold peek
  split
  · exact l.peeked_peekRead
  · exact l.readAhead.peeked_peekRead

end Lookahead

end JackToolchain.Jack
