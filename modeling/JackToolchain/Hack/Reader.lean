import JackToolchain.Hack.Assembler
import JackToolchain.Hack.Scanner

/-!
# Reading a program token by token

A *reader* draws the tokens of a source from a scanner, one at a time, and reads statements as it
goes.  The texts of the tokens, and the line that an error cites, are slices of the source.  A slice
has to begin and end between characters, inside the source; otherwise there is no result, as there
is none if the scanner gives none.

The offsets of the scanner have 32 bits.  Below that size a source is assembled to the same words,
or refused with the same error, as by `assemble`.
-/

namespace JackToolchain.Hack

/-! ### Slices -/

/-- The parts of a text in front of a byte and from it on, unless the byte is inside a character or
behind the text. -/
def cut? : Nat → List Char → Option (List Char × List Char)
  | n, [] => if n = 0 then some ([], []) else none
  | n, c :: cs =>
    if n = 0 then some ([], c :: cs)
    else if c.utf8Size ≤ n then
      (cut? (n - c.utf8Size) cs).map fun (front, behind) => (c :: front, behind)
    else none

/-- The slice of a text between two offsets. -/
def slice? (text : List Char) (start stop : Nat) : Option (List Char) := do
  let (_, behind) ← cut? start text
  if stop < start then none
  else
    let (part, _) ← cut? (stop - start) behind
    return part

/-- The place of the byte at an offset.  The stretch of the line around it is kept with 32 bits; the
line itself is found before the offsets are cut. -/
def place? (text : List Char) (index : UInt32) : Option Place := do
  let around := lineFrom index.toNat 0 0 text
  let start := UInt32.ofNat around.index
  let stop := UInt32.ofNat around.stop
  if stop < start then none
  else
    let line ← slice? text around.index around.stop
    let before ← slice? text 0 start.toNat
    let inLine ← slice? text start.toNat index.toNat
    return {
      line := before.count '\n' + 1
      column := inLine.length + 1
      lineText := String.ofList (withoutEnding line) }

/-! ### Readers -/

/-- What reads a source with a scanner, and leaves the scanner behind what has been read. -/
abbrev Reader (α : Type) : Type := StateT Scanner (ExceptT AsmError Option) α

namespace Reader

variable {α β σ : Type}

/-- The next token. -/
def token : Reader Mark := fun s => s.next?.map .ok

/-- Whether the end of the source has been read. -/
def atEnd : Reader Bool := fun s => some (.ok (s.atEnd, s))

/-- The text of a token. -/
def fragment (text : List Char) (m : Mark) : Reader String := fun s =>
  (slice? text m.extent.index.toNat (m.extent.index.toNat + m.extent.size.toNat)).map fun part =>
    .ok (String.ofList part, s)

/-- A fault at the beginning of a stretch. -/
def fail (text : List Char) (fault : AsmFault) (x : Extent) : Reader α := fun _ =>
  (place? text x.index).map fun place => .error ⟨fault, place⟩

/-- Nothing but the end of the line may follow. -/
def expectEnd (text : List Char) : Reader Unit := do
  let t ← token
  if t.kind.endsLine then return () else fail text .endOfLineExpected t.extent

/-! ### Loops -/

/-- A reader that never goes back. -/
def Forward (x : Reader α) : Prop :=
  ∀ s a s', x s = some (.ok (a, s')) → s'.left.length ≤ s.left.length

theorem of_bind {x : Reader α} {f : α → Reader β} {s s'' : Scanner} {b : β}
    (h : (x >>= f) s = some (.ok (b, s''))) :
    ∃ a s', x s = some (.ok (a, s')) ∧ f a s' = some (.ok (b, s'')) := by
  replace h : (x s).bind _ = some (.ok (b, s'')) := h
  obtain ⟨result, hx, hf⟩ := Option.bind_eq_some_iff.mp h
  cases result with
  | error e => cases hf
  | ok read => exact ⟨read.1, read.2, hx, hf⟩

theorem of_token {s s' : Scanner} {t : Mark} (h : token s = some (.ok (t, s'))) :
    s.next? = some (t, s') := by
  obtain ⟨read, hread, heq⟩ := Option.map_eq_some_iff.mp h
  cases heq
  exact hread

theorem Forward.bind {x : Reader α} {f : α → Reader β} (hx : x.Forward)
    (hf : ∀ a, (f a).Forward) : (x >>= f).Forward := by
  intro s b s'' h
  obtain ⟨a, s', hs', hs''⟩ := of_bind h
  exact Nat.le_trans (hf a s' b s'' hs'') (hx s a s' hs')

theorem forward_pure (a : α) : Forward (pure a) := by
  intro s b s' h
  cases h
  exact Nat.le_refl _

theorem forward_token : token.Forward := fun _ _ _ h => (Scanner.length_next? (of_token h)).1

theorem forward_fragment (text : List Char) (m : Mark) : (fragment text m).Forward := by
  intro s a s' h
  obtain ⟨part, -, heq⟩ := Option.map_eq_some_iff.mp h
  cases heq
  exact Nat.le_refl _

theorem forward_fail (text : List Char) (fault : AsmFault) (x : Extent) :
    (fail text fault x : Reader α).Forward := by
  intro s a s' h
  obtain ⟨place, -, heq⟩ := Option.map_eq_some_iff.mp h
  cases heq

theorem forward_expectEnd (text : List Char) : (expectEnd text).Forward := by
  refine forward_token.bind fun t => ?_
  split
  · exact forward_pure ()
  · exact forward_fail text _ _

/-- Steps of a reader, each of which reads something or is the last one. -/
structure Loop (σ α : Type) where
  step : σ → Reader (σ ⊕ α)
  forward : ∀ a, (step a).Forward
  progress : ∀ a s a' s', step a s = some (.ok (.inl a', s')) → s'.left.length < s.left.length

/-- Takes one step after the other. -/
def Loop.run (l : Loop σ α) (a : σ) (s : Scanner) : Option (Except AsmError (α × Scanner)) :=
  match h : l.step a s with
  | none => none
  | some (.error e) => some (.error e)
  | some (.ok (.inr b, s')) => some (.ok (b, s'))
  | some (.ok (.inl a', s')) =>
    have := l.progress a s a' s' h
    l.run a' s'
termination_by s.left.length

theorem Loop.forward_run (l : Loop σ α) (a : σ) : Forward (l.run a : Reader α) := by
  intro s b s' h
  fun_induction Loop.run l a s with
  | case1 => cases h
  | case2 => cases h
  | case3 a s c s'' hstep =>
    cases h
    exact l.forward a _ _ _ hstep
  | case4 a s a' s'' hstep hless ih => exact Nat.le_trans (ih h) (Nat.le_of_lt hless)

/-! ### Statements -/

/-- `(name)`, read behind the opening parenthesis. -/
def readLabel (text : List Char) : Reader (Statement × Extent) := do
  let name ← token
  if name.kind ≠ .symbol then fail text .labelExpected name.extent
  else
    let close ← token
    if close.kind ≠ .rightParen then fail text .rightParenExpected close.extent
    else
      expectEnd text
      let label ← fragment text name
      return (.label label, name.extent)

/-- What a token behind `@` loads. -/
def readOperand (text : List Char) (t : Mark) : Reader Operand := do
  let operand ← fragment text t
  match t.kind with
  | .symbol => return .symbol operand
  | .number =>
    let value := Text.decimalValue operand.toList
    if value ≤ maxConstant then return .constant value
    else fail text (.constantOutOfRange operand) t.extent
  | _ => fail text .operandExpected t.extent

/-- `@value`, read behind the sign. -/
def readLoad (text : List Char) : Reader (Statement × Extent) := do
  let t ← token
  let operand ← readOperand text t
  expectEnd text
  return (.load operand, t.extent)

/-- One part of an instruction, behind those of `done`.  The next token begins the next part, or
ends the line. -/
def readPart (text : List Char) :
    List Char × Mark → Reader ((List Char × Mark) ⊕ (List Char × Mark))
  | (done, t) => do
    if t.kind.isInstructionPart then
      let part ← fragment text t
      let behind ← token
      if behind.kind.endsLine then return .inr (done ++ part.toList, t)
      else return .inl (done ++ part.toList, behind)
    else fail text (.unexpectedToken t.kind) t.extent

theorem forward_readPart (text : List Char) (a : List Char × Mark) :
    (readPart text a).Forward := by
  obtain ⟨done, t⟩ := a
  unfold readPart
  dsimp only
  split
  · refine (forward_fragment text t).bind fun part => forward_token.bind fun behind => ?_
    split
    · exact forward_pure _
    · exact forward_pure _
  · exact forward_fail text _ _

/-- The parts of an instruction up to the end of the line: what they spell, and the last of them. -/
def parts (text : List Char) : Loop (List Char × Mark) (List Char × Mark) where
  step := readPart text
  forward := forward_readPart text
  progress := by
    rintro ⟨done, t⟩ s a' s' h
    unfold readPart at h
    dsimp only at h
    split at h
    · obtain ⟨part, s₁, hpart, h⟩ := of_bind h
      obtain ⟨behind, s₂, htoken, h⟩ := of_bind h
      have hs₁ := forward_fragment text t s part s₁ hpart
      split at h
      · cases h
      · next hends =>
        cases h
        have hkind : behind.kind ≠ .endOfFile := fun hkind => hends (by rw [hkind]; rfl)
        exact Nat.lt_of_lt_of_le ((Scanner.length_next? (of_token htoken)).2 hkind) hs₁
    · obtain ⟨place, -, heq⟩ := Option.map_eq_some_iff.mp h
      cases heq

/-- A compute instruction that begins with a token. -/
def readCompute (text : List Char) (first : Mark) : Reader (Statement × Extent) := do
  let (spelling, last) ← (parts text).run ([], first)
  let whole := first.extent.merge last.extent
  match Instruction.ofText spelling with
  | .ok i => return (.compute i, whole)
  | .error fault => fail text fault whole

/-- The statement that begins with a token, and the stretch that names what it is about. -/
def readStatement (text : List Char) (t : Mark) : Reader (Statement × Extent) :=
  match t.kind with
  | .at => readLoad text
  | .leftParen => readLabel text
  | .unknown => do
    let unknown ← fragment text t
    fail text (.unknownToken unknown) t.extent
  | _ => readCompute text t

/-- Adds a statement to a program. -/
def add (text : List Char) (p : Program) (s : Statement) (x : Extent) : Reader Program :=
  match p.add ⟨s, x.span⟩ with
  | .ok p => return p
  | .error e => fail text e.fault x

theorem forward_readLabel (text : List Char) : (readLabel text).Forward := by
  refine forward_token.bind fun name => ?_
  split
  · exact forward_fail text _ _
  · refine forward_token.bind fun close => ?_
    split
    · exact forward_fail text _ _
    · refine (forward_expectEnd text).bind fun _ => ?_
      exact (forward_fragment text name).bind fun _ => forward_pure _

theorem forward_readOperand (text : List Char) (t : Mark) : (readOperand text t).Forward := by
  refine (forward_fragment text t).bind fun operand => ?_
  split
  · exact forward_pure _
  · dsimp only
    split
    · exact forward_pure _
    · exact forward_fail text _ _
  · exact forward_fail text _ _

theorem forward_readLoad (text : List Char) : (readLoad text).Forward :=
  forward_token.bind fun t => (forward_readOperand text t).bind fun _ =>
    (forward_expectEnd text).bind fun _ => forward_pure _

theorem forward_readCompute (text : List Char) (first : Mark) :
    (readCompute text first).Forward := by
  refine ((parts text).forward_run _).bind fun (spelling, last) => ?_
  dsimp only
  split
  · exact forward_pure _
  · exact forward_fail text _ _

theorem forward_readStatement (text : List Char) (t : Mark) :
    (readStatement text t).Forward := by
  unfold readStatement
  split
  · exact forward_readLoad text
  · exact forward_readLabel text
  · exact (forward_fragment text t).bind fun _ => forward_fail text _ _
  · exact forward_readCompute text t

theorem forward_add (text : List Char) (p : Program) (s : Statement) (x : Extent) :
    (add text p s x).Forward := by
  unfold add
  split
  · exact forward_pure _
  · exact forward_fail text _ _

/-! ### Programs -/

/-- One line of a program, or the end of the source. -/
def readLine (text : List Char) (p : Program) : Reader (Program ⊕ Program) := do
  let t ← token
  match t.kind with
  | .newline => return .inl p
  | .endOfFile => if ← atEnd then return .inr p else fail text .nullCharacter t.extent
  | _ =>
    let (s, x) ← readStatement text t
    let p ← add text p s x
    return .inl p

theorem forward_atEnd : atEnd.Forward := by
  intro s a s' h
  cases h
  exact Nat.le_refl _

theorem forward_readLine (text : List Char) (p : Program) : (readLine text p).Forward := by
  refine forward_token.bind fun t => ?_
  split
  · exact forward_pure _
  · refine forward_atEnd.bind fun ended => ?_
    split
    · exact forward_pure _
    · exact forward_fail text _ _
  · refine (forward_readStatement text t).bind fun (s, x) => ?_
    exact (forward_add text p s x).bind fun _ => forward_pure _

/-- The lines of a program. -/
def lines (text : List Char) : Loop Program Program where
  step := readLine text
  forward := forward_readLine text
  progress := by
    intro p s p' s' h
    obtain ⟨t, s₁, htoken, h⟩ := of_bind h
    have hs₁ := (Scanner.length_next? (of_token htoken)).2
    dsimp only at h
    generalize t.kind = kind at h hs₁
    cases kind with
    | newline =>
      cases h
      exact hs₁ (by decide)
    | endOfFile =>
      obtain ⟨ended, s₂, -, h⟩ := of_bind h
      split at h
      · cases h
      · obtain ⟨place, -, heq⟩ := Option.map_eq_some_iff.mp h
        cases heq
    | _ =>
      obtain ⟨⟨statement, x⟩, s₂, hread, h⟩ := of_bind h
      obtain ⟨added, s₃, hadd, h⟩ := of_bind h
      cases h
      have hs₂ := forward_readStatement text t _ _ _ hread
      have hs₃ := forward_add text p statement x _ _ _ hadd
      have hless := hs₁ (by decide)
      omega

end Reader

/-- Assembles a source token by token, with offsets of 32 bits. -/
def assemble? (source : String) : Option (Except AsmError (Array Word)) :=
  match (Reader.lines source.toList).run {} (.ofSource source) with
  | none => none
  | some (.error e) => some (.error e)
  | some (.ok (p, _)) => some (.ok p.resolve)

end JackToolchain.Hack
