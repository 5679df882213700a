import Mathlib.Logic.Function.Iterate
import JackToolchain.Proofs.Jack.Tokenization

/-!
# Reading goes on behind errors

A reader who wants more than the first error reads on behind it, and behind the end of the source,
too, for as long as it likes.  What one reading does is said by `Cursor.Step`: it takes a gap and
then the end of the source, a lexeme, or something misspelled, and a line feed that ends a string
constant too early with it.  So a reading that does not yield the end of the source takes a
character at least (`Cursor.Step.takes`), and the tokens that it yields cover what it takes behind
the gap (`Cursor.Step.span`).

From this follows what all readings of a source do, whatever is wrong with it (`readings_get_past`):
there are no more of them in front of the end than characters, the spans of the tokens come in order
also across errors, and behind the end there is only the end.
-/

namespace JackToolchain.Jack

variable {rest text word : List Char} {p : Position} {fault : LexFault} {source : String}
  {c d : Cursor} {item : Item} {t : Token}

/-! ### Behind what is misspelled -/

theorem Misspelled.ne_nil (h : Misspelled rest text fault) : text ≠ [] := by
  cases h with
  | integerOutOfRange hrun => exact hrun.ne_nil
  | _ => exact List.cons_ne_nil _ _

/-- A run is read to its end, be it a word or not. -/
theorem snd_next_of_run (h : Run rest word) :
    (⟨word ++ rest, p⟩ : Cursor).next.2 = ⟨rest, p.after word⟩ := by
  rw [next_of_run h]
  cases classify word <;> rfl

/-- **Where reading goes on.**  What is misspelled is behind, and perhaps a line feed that should
not have been there. -/
theorem resumes_of_misspelled (h : Misspelled rest text fault) :
    ∃ eaten, rest = eaten ++ (⟨text ++ rest, p⟩ : Cursor).next.2.rest ∧
      (⟨text ++ rest, p⟩ : Cursor).next.2.pos.offset = (p.after (text ++ eaten)).offset := by
  have hrun {word : List Char} (h : Run rest word) :
      ∃ eaten, rest = eaten ++ (⟨word ++ rest, p⟩ : Cursor).next.2.rest ∧
        (⟨word ++ rest, p⟩ : Cursor).next.2.pos.offset = (p.after (word ++ eaten)).offset := by
    rw [snd_next_of_run h]
    exact ⟨[], rfl, by rw [List.append_nil]⟩
  cases h with
  | @unterminatedString body hquote hline hstop =>
    have hbody := isStringChar_of_mem hquote hline
    have hend : ∀ c ∈ rest.head?, isStringChar c = false := by
      intro c hc
      rw [hstop c hc]
      rfl
    rw [List.cons_append, next_of_quote]
    unfold stringConstant
    rw [Text.takeWhile_run hbody hend, Text.dropWhile_run hbody hend]
    cases rest with
    | nil => exact ⟨[], rfl, by rw [List.append_nil]; rfl⟩
    | cons c cs =>
      rw [hstop c rfl]
      exact ⟨['\n'], rfl, by rw [Position.after_append]; rfl⟩
  | @unterminatedComment body hrest hbody =>
    subst hrest
    rw [List.append_nil]
    unfold Cursor.next
    dsimp only
    rw [skipTrivia_block (closeComment_of_open hbody)]
    exact ⟨[], rfl, by rw [List.append_nil]; rfl⟩
  | integerOutOfRange h => exact hrun h
  | malformedInteger h => exact hrun h
  | invalidIdentifier h => exact hrun h

/-! ### One reading -/

namespace Cursor

/-- What a reading yields, and where it leaves the cursor. -/
inductive Step : Cursor → Item → Cursor → Prop where
  | eos {p : Position} {gap : List Char} : Gap [] gap →
      Step ⟨gap, p⟩ (.ok (endToken (p.after gap))) ⟨[], (p.after gap).pastEnd⟩
  | token {p : Position} {gap text rest : List Char} {kind : Kind} : Gap (text ++ rest) gap →
      Spells rest text kind →
      Step ⟨gap ++ (text ++ rest), p⟩ (.ok (tokenAt (p.after gap) kind text))
        ⟨rest, (p.after gap).after text⟩
  | error {p : Position} {gap text eaten : List Char} {fault : LexFault} {d : Cursor} :
      Gap (text ++ (eaten ++ d.rest)) gap → Misspelled (eaten ++ d.rest) text fault →
      d.pos.offset = ((p.after gap).after (text ++ eaten)).offset →
      Step ⟨gap ++ (text ++ (eaten ++ d.rest)), p⟩ (.error (errorAt (p.after gap) fault)) d

/-- **Each reading is a step.** -/
theorem step_next (c : Cursor) : Step c c.next.1 c.next.2 := by
  obtain ⟨cs, p⟩ := c
  obtain ⟨gap, behind, rfl, hgap, hsettled⟩ := exists_gap cs
  rw [next_of_gap hgap]
  by_cases hbehind : behind = []
  · subst hbehind
    rw [List.append_nil, next_of_nil]
    exact .eos hgap
  · obtain ⟨text, rest, rfl, -, ⟨kind, hspells⟩ | ⟨fault, hwrong⟩⟩ :=
      spells_or_misspelled hsettled hbehind
    · rw [next_of_spells hspells]
      exact .token hgap hspells
    · obtain ⟨eaten, hrest, hoffset⟩ := resumes_of_misspelled (p := p.after gap) hwrong
      rw [next_of_misspelled hwrong]
      generalize (⟨text ++ rest, p.after gap⟩ : Cursor).next.2 = d at hrest hoffset
      subst hrest
      exact .error hgap hwrong hoffset

/-- The cursor stands between two characters of a source, as many bytes behind its beginning as it
says. -/
def StandsIn (source : String) (c : Cursor) : Prop :=
  ∃ front, source.toList = front ++ c.rest ∧ c.pos.offset = (Position.origin.after front).offset

/-- Whether an item is the end of the source. -/
def IsEnd : Item → Prop
  | .ok t => t.kind = .eos
  | .error _ => False

namespace Step

/-- What a reading takes stands in front of what it leaves, and moves the cursor by its bytes. -/
theorem takes (h : Step c item d) :
    ∃ taken, c.rest = taken ++ d.rest ∧ d.pos.offset = (c.pos.after taken).offset ∧
      (¬IsEnd item → taken ≠ []) := by
  cases h with
  | @eos p gap hgap => exact ⟨gap, (List.append_nil gap).symm, rfl, fun hitem => absurd rfl hitem⟩
  | @token p gap text rest kind hgap hspells =>
    refine ⟨gap ++ text, (List.append_assoc ..).symm, ?_, fun _ htaken => ?_⟩
    · rw [Position.after_append]
    · exact hspells.ne_nil (List.append_eq_nil_iff.mp htaken).2
  | @error p gap text eaten fault d hgap hwrong hoffset =>
    refine ⟨gap ++ (text ++ eaten), ?_, ?_, fun _ htaken => ?_⟩
    · simp only [List.append_assoc]
    · rw [Position.after_append]
      exact hoffset
    · exact hwrong.ne_nil (List.append_eq_nil_iff.mp (List.append_eq_nil_iff.mp htaken).2).1

theorem standsIn (h : Step c item d) (hc : c.StandsIn source) : d.StandsIn source := by
  obtain ⟨front, hsource, hoffset⟩ := hc
  obtain ⟨taken, hrest, hmoved, -⟩ := h.takes
  refine ⟨front ++ taken, ?_, ?_⟩
  · rw [hsource, hrest, List.append_assoc]
  · rw [hmoved, Position.after_append, offset_after, offset_after _ taken, hoffset]

theorem offset_le (h : Step c item d) : c.pos.offset ≤ d.pos.offset := by
  obtain ⟨taken, -, hmoved, -⟩ := h.takes
  rw [hmoved, offset_after]
  exact Nat.le_add_right _ _

/-- The span of a token lies between the places of the cursor, and ends where the next reading
begins. -/
theorem span (h : Step c (.ok t) d) :
    c.pos.offset ≤ t.span.start ∧ t.span.start ≤ t.span.stop ∧ t.span.stop = d.pos.offset := by
  have hle (p : Position) (cs : List Char) : p.offset ≤ (p.after cs).offset := by
    rw [offset_after]
    exact Nat.le_add_right _ _
  cases h with
  | eos hgap => exact ⟨hle _ _, Nat.le_refl _, rfl⟩
  | token hgap hspells => exact ⟨hle _ _, hle _ _, rfl⟩

/-- A token stands where its span says. -/
theorem token_standsIn (h : Step c (.ok t) d) (hc : c.StandsIn source) : t.StandsIn source := by
  obtain ⟨front, hsource, hoffset⟩ := hc
  -- Only the bytes in front count, so the cursor may as well have come here without errors.
  have hfront (gap : List Char) : (c.pos.after gap).offset =
      (Position.origin.after (front ++ gap)).offset := by
    rw [Position.after_append, offset_after, hoffset, offset_after _ gap]
  rw [← String.ofList_toList (s := source), hsource]
  cases h with
  | @eos p gap hgap =>
    have hstands := standsIn_of_offset (t := endToken (p.after gap)) (front ++ gap) [] [] rfl
      (hfront gap) (by rw [List.append_nil]; exact hfront gap)
    simpa only [List.append_nil] using hstands
  | @token p gap text rest kind hgap hspells =>
    have hstop : ((p.after gap).after text).offset =
        (Position.origin.after (front ++ gap ++ text)).offset := by
      rw [← Position.after_append, List.append_assoc]
      exact hfront (gap ++ text)
    have hstands :=
      standsIn_of_offset (t := tokenAt (p.after gap) kind text) (front ++ gap) text rest rfl
      (hfront gap) hstop
    rwa [List.append_assoc] at hstands

/-- With the end of the source nothing is left, and the span of the end is empty. -/
theorem of_isEnd (h : Step c (.ok t) d) (ht : t.kind = .eos) :
    d.rest = [] ∧ t.span.start = d.pos.offset ∧ t.span.stop = d.pos.offset := by
  cases h with
  | eos hgap => exact ⟨rfl, rfl, rfl⟩
  | token hgap hspells => exact absurd ht hspells.kind_ne_eos

end Step

/-- A cursor that has nothing left stands behind all bytes of its source. -/
theorem StandsIn.offset_eq (h : c.StandsIn source) (hrest : c.rest = []) :
    c.pos.offset = source.utf8ByteSize := by
  obtain ⟨front, hsource, hoffset⟩ := h
  rw [hrest, List.append_nil] at hsource
  rw [hoffset, offset_after, ← hsource, String.ofList_toList]
  exact Nat.zero_add _

/-! ### Readings one after the other -/

/-- The cursor behind so many readings, with or without errors. -/
def behind (c : Cursor) (n : Nat) : Cursor := (fun d => d.next.2)^[n] c

/-- What a reading yields behind so many others. -/
def reading (c : Cursor) (n : Nat) : Item := (c.behind n).next.1

theorem behind_succ (c : Cursor) (n : Nat) : c.behind (n + 1) = (c.behind n).next.2 :=
  Function.iterate_succ_apply' _ n c

theorem behind_next (c : Cursor) (n : Nat) : c.next.2.behind n = c.behind (n + 1) :=
  (Function.iterate_succ_apply _ n c).symm

theorem step_reading (c : Cursor) (n : Nat) :
    Step (c.behind n) (c.reading n) (c.behind (n + 1)) := by
  rw [behind_succ]
  exact step_next (c.behind n)

theorem step_of_reading {n : Nat} (h : c.reading n = item) :
    Step (c.behind n) item (c.behind (n + 1)) :=
  h ▸ c.step_reading n

theorem standsIn_ofSource (source : String) : (ofSource source).StandsIn source := ⟨[], rfl, rfl⟩

/-- The cursor stands in the source behind any number of readings. -/
theorem StandsIn.behind (h : c.StandsIn source) (n : Nat) : (c.behind n).StandsIn source := by
  induction n with
  | zero => exact h
  | succ n ih => exact (c.step_reading n).standsIn ih

theorem offset_behind_le {m n : Nat} (h : m ≤ n) :
    (c.behind m).pos.offset ≤ (c.behind n).pos.offset := by
  induction h with
  | refl => exact Nat.le_refl _
  | @step n _ ih => exact Nat.le_trans ih (c.step_reading n).offset_le

/-- **The end is reached** by as many readings as there are characters, and one more. -/
theorem exists_isEnd (c : Cursor) :
    ∃ n, n ≤ c.rest.length ∧ (∀ k, k < n → ¬IsEnd (c.reading k)) ∧ IsEnd (c.reading n) := by
  induction hn : c.rest.length using Nat.strongRecOn generalizing c with
  | ind n ih =>
    subst hn
    by_cases hend : IsEnd (c.reading 0)
    · exact ⟨0, Nat.zero_le _, fun k hk => absurd hk (Nat.not_lt_zero k), hend⟩
    · obtain ⟨taken, hrest, -, htaken⟩ := (c.step_reading 0).takes
      have hlength : c.rest.length = taken.length + c.next.2.rest.length := by
        rw [← List.length_append]
        exact congrArg List.length hrest
      have hpos := List.length_pos_iff.mpr (htaken hend)
      obtain ⟨n, hle, hbefore, hlast⟩ := ih c.next.2.rest.length (by omega) c.next.2 rfl
      have hnext (k : Nat) : c.next.2.reading k = c.reading (k + 1) := by
        unfold reading
        rw [behind_next]
      refine ⟨n + 1, by omega, ?_, hnext n ▸ hlast⟩
      intro k hk
      cases k with
      | zero => exact hend
      | succ k =>
        rw [← hnext k]
        exact hbefore k (by omega)

/-- Once the end is reached, every reading yields it. -/
theorem isEnd_of_le {m n : Nat} (h : m ≤ n) (hend : IsEnd (c.reading m)) : IsEnd (c.reading n) := by
  induction h with
  | refl => exact hend
  | @step n _ ih =>
    have hrest : (c.behind (n + 1)).rest = [] := by
      cases hitem : c.reading n with
      | error e =>
        rw [hitem] at ih
        exact absurd ih id
      | ok t =>
        rw [hitem] at ih
        exact ((step_of_reading hitem).of_isEnd ih).1
    unfold reading
    generalize c.behind (n + 1) = d at hrest
    obtain ⟨_, p⟩ := d
    subst hrest
    rw [next_of_nil]
    exact rfl

/-- **Reading gets past everything.**  However much of a source is misspelled, no more readings than
it has characters come in front of the one that yields its end.  Each of them takes a character at
least.  Every reading behind them yields the end of the source again.  The tokens among all that is
yielded stand where their spans say, and a span ends before the next one begins, whether there have
been errors between them or not. -/
theorem readings_get_past (source : String) :
    ∃ n, n ≤ source.length ∧
      (∀ k, k < n → ¬IsEnd ((ofSource source).reading k) ∧
        ∃ taken, taken ≠ [] ∧
        ((ofSource source).behind k).rest = taken ++ ((ofSource source).behind (k + 1)).rest) ∧
      (∀ k, n ≤ k → ∃ t, (ofSource source).reading k = .ok t ∧ t.kind = .eos ∧
        t.span.start = source.utf8ByteSize ∧ t.span.stop = source.utf8ByteSize) ∧
      (∀ k t, (ofSource source).reading k = .ok t → t.StandsIn source) ∧
      ∀ j k t u, j < k → (ofSource source).reading j = .ok t → (ofSource source).reading k = .ok u →
        t.span.start ≤ t.span.stop ∧ t.span.stop ≤ u.span.start := by
  have hstands := (standsIn_ofSource source).behind
  obtain ⟨n, hn, hbefore, hend⟩ := (ofSource source).exists_isEnd
  have hlength : (ofSource source).rest.length = source.length := String.length_toList
  rw [hlength] at hn
  refine ⟨n, hn, fun k hk => ⟨hbefore k hk, ?_⟩, fun k hk => ?_, fun k t hk => ?_,
    fun j k t u hjk hj hk => ?_⟩
  · obtain ⟨taken, hrest, -, htaken⟩ := ((ofSource source).step_reading k).takes
    exact ⟨taken, htaken (hbefore k hk), hrest⟩
  · have hk' := isEnd_of_le hk hend
    cases hitem : (ofSource source).reading k with
    | error e =>
      rw [hitem] at hk'
      exact absurd hk' id
    | ok t =>
      rw [hitem] at hk'
      obtain ⟨hrest, hstart, hstop⟩ := (step_of_reading hitem).of_isEnd hk'
      have hoffset := (hstands (k + 1)).offset_eq hrest
      exact ⟨t, rfl, hk', hstart.trans hoffset, hstop.trans hoffset⟩
  · exact (step_of_reading hk).token_standsIn (hstands k)
  · obtain ⟨-, hspan, hstop⟩ := (step_of_reading hj).span
    obtain ⟨hstart, -, -⟩ := (step_of_reading hk).span
    have hbetween := offset_behind_le (c := ofSource source) (show j + 1 ≤ k from hjk)
    exact ⟨hspan, by omega⟩

/-- Behind two errors there is a semicolon, and then the end, as often as one asks. -/
example : [0, 1, 2, 3, 4].map (fun n => ((ofSource "\"a\n1x;").reading n).toOption.map Token.span) =
    [none, none, some ⟨5, 6, 2, 3⟩, some ⟨6, 6, 2, 4⟩, some ⟨6, 6, 2, 5⟩] := by decide +kernel

end Cursor

end JackToolchain.Jack
