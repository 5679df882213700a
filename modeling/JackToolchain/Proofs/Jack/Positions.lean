import JackToolchain.Proofs.Jack.Tokenization
import Mathlib.Data.List.Induction

/-!
# Items stand where they say

An item of a source cites a line and a column, and a token the bytes that it covers.  The lexer
keeps count of these while it reads.  Here they are counted in the text that stands in front of a
character (`Position.behind`), and the two agree whatever has been skipped on the way: blanks,
comments over several lines, characters of several bytes (`Position.after_origin`).

So each item stands where it says (`items_begin`).  Between the end of the item in front and the
item there is nothing but a gap, and behind the gap there begins what the item is about: the text of
the token, the opening quote or the opening of the comment that is not closed, the bad word, or the
end of the source.
-/

namespace JackToolchain.Jack

variable {c : Char} {front rest text : List Char} {items done left : List Item} {item : Item}

/-! ### Counting -/

/-- The position of the character behind a text: the bytes of the text, one more than its line
feeds, and one more than the characters behind the last of these. -/
def Position.behind (text : List Char) : Position where
  offset := (String.ofList text).utf8ByteSize
  line := text.count '\n' + 1
  column := (text.reverse.takeWhile (· != '\n')).length + 1

/-- **One character more.**  A line feed is counted with the line that it ends. -/
theorem Position.behind_concat (text : List Char) (c : Char) :
    Position.behind (text ++ [c]) = (Position.behind text).advance c := by
  have hoffset : (String.ofList (text ++ [c])).utf8ByteSize = (String.ofList text).utf8ByteSize +
      c.utf8Size := by
    rw [String.ofList_append, String.utf8ByteSize_append, ← String.singleton_eq_ofList,
      String.utf8ByteSize_singleton]
  unfold Position.behind Position.advance
  rw [hoffset]
  by_cases hc : c = '\n'
  · simp [hc]
  · simp [hc]

/-- **The lexer counts right.** -/
theorem Position.after_origin (text : List Char) :
    Position.origin.after text = Position.behind text := by
  induction text using List.reverseRecOn with
  | nil => rfl
  | append_singleton text c ih =>
    rw [Position.after_append, ih, Position.behind_concat]
    rfl

theorem Position.after_behind (front text : List Char) :
    (Position.behind front).after text = Position.behind (front ++ text) := by
  rw [← Position.after_origin, ← Position.after_origin, Position.after_append]

/-! ### Items of a layout -/

/-- What an item is about begins behind `front`, where `rest` follows. -/
inductive Item.Begins (front : List Char) : List Char → Item → Prop where
  /-- The text of the token is spelled there, and its span covers the text. -/
  | token {text behind : List Char} {t : Token} : Spells behind text t.kind →
      t.text = String.ofList text →
      t.span = (Position.behind front).spanTo (Position.behind (front ++ text)).offset →
      Begins front (text ++ behind) (.ok t)
  /-- The end of the source covers nothing. -/
  | eos {t : Token} : t.kind = .eos →
      t.span = (Position.behind front).spanTo (Position.behind front).offset →
      Begins front [] (.ok t)
  /-- Something is misspelled there. -/
  | error {text behind : List Char} {e : LexError} : Misspelled behind text e.fault →
      e.line = (Position.behind front).line → e.column = (Position.behind front).column →
      Begins front (text ++ behind) (.error e)

/-- Where the last token of items ends, or `start` if there is none. -/
def stopBehind (start : Nat) : List Item → Nat
  | [] => start
  | .ok t :: items => stopBehind t.span.stop items
  | .error _ :: items => stopBehind start items

/-- An item among those that are laid out behind a text.  The induction is on the layout, and the
text in front grows with each token. -/
theorem begins_of_layout (h : Layout (Position.behind front) text items)
    (hitems : items = done ++ item :: left) :
    ∃ before gap rest, front ++ text = before ++ (gap ++ rest) ∧
      (Position.behind before).offset = stopBehind (Position.behind front).offset done ∧
      Gap rest gap ∧
        item.Begins (before ++ gap) rest := by
  generalize hp : Position.behind front = p at h
  induction h generalizing front done with
  | @eos p gap hgap =>
    subst hp
    obtain ⟨rfl, rfl, rfl⟩ : done = [] ∧ item = .ok (endToken ((Position.behind front).after gap)) ∧
      left = [] := by
      cases done with
      | nil => simpa [eq_comm] using hitems
      | cons => simp at hitems
    refine ⟨front, gap, [], by rw [List.append_nil], rfl, hgap, .eos rfl ?_⟩
    rw [Position.after_behind]
    rfl
  | @token p gap text rest kind items hgap hspells _ ih =>
    subst hp
    cases done with
    | nil =>
      obtain ⟨rfl, rfl⟩ := List.cons.inj hitems
      refine ⟨front, gap, text ++ rest, rfl, rfl, hgap, .token hspells rfl ?_⟩
      rw [← Position.after_behind _ text, ← Position.after_behind]
      rfl
    | cons first done =>
      obtain ⟨rfl, hrest⟩ := List.cons.inj hitems
      have hbehind : Position.behind (front ++ gap ++ text) =
          ((Position.behind front).after gap).after text := by
        rw [Position.after_behind, Position.after_behind]
      obtain ⟨before, gap', rest', hsplit, hstop, hgap', hbegins⟩ := ih hrest hbehind
      refine ⟨before, gap', rest', ?_, ?_, hgap', hbegins⟩
      · rw [← hsplit, List.append_assoc, List.append_assoc]
      · exact hstop
  | @error p gap text rest fault hgap hwrong =>
    subst hp
    obtain ⟨rfl, rfl, rfl⟩ : done = [] ∧
      item = .error (errorAt ((Position.behind front).after gap) fault) ∧ left = [] := by
      cases done with
      | nil => simpa [eq_comm] using hitems
      | cons => simp at hitems
    refine ⟨front, gap, text ++ rest, rfl, rfl, hgap, .error hwrong ?_ ?_⟩
    · rw [Position.after_behind]
      rfl
    · rw [Position.after_behind]
      rfl

/-- **Items stand where they say.**  An item of a source begins behind the item in front of it and a
gap.  Its line and its column, and the bytes of a token, are counted in all that stands in front. -/
theorem items_begin {source : String} (h : (Cursor.ofSource source).items = done ++ item :: left) :
    ∃ front gap rest, source.toList = front ++ (gap ++ rest) ∧
      (Position.behind front).offset = stopBehind 0 done ∧
      Gap rest gap ∧ item.Begins (front ++ gap) rest := by
  obtain ⟨items, hlayout⟩ := exists_layout (Position.behind []) source.toList
  have hitems : (Cursor.ofSource source).items = items := items_of_layout hlayout
  exact begins_of_layout hlayout (hitems ▸ h)

/-- A comment over two lines with characters of several bytes, and a bad word on the second line. -/
def accentedSource : String := "/* é\n */ ü1"

theorem items_begin_accented :
    (Cursor.ofSource accentedSource).items = [] ++ .error ⟨.invalidIdentifier "ü1", 2, 5⟩ :: [] ∧
      ∃ front gap rest, accentedSource.toList = front ++ (gap ++ rest) ∧
        (Position.behind front).offset = stopBehind 0 [] ∧ Gap rest gap ∧
          Item.Begins (front ++ gap) rest (.error ⟨.invalidIdentifier "ü1", 2, 5⟩) := by
  have hitems : (Cursor.ofSource accentedSource).items = [] ++ .error ⟨.invalidIdentifier "ü1", 2,
      5⟩ :: [] := by
    decide +kernel
  exact ⟨hitems, items_begin hitems⟩

end JackToolchain.Jack
