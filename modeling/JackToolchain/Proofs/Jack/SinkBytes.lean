import JackToolchain.Proofs.VM.ProgramLayout

/-!
# The bytes that a sink takes

The bytes of a program are those of its lines (`bytes_programText`).  A sink with limited room takes
as many bytes of commands as there is room for, whole commands first and then a part of one
(`Sink.bytes_writeAll`).  Once a command has not fitted, the sink is full and nothing is taken any
more (`Sink.writeAll_append_of_not_fits`).
-/

namespace JackToolchain.Jack

open VM (Command programText)

/-! ### Bytes -/

/-- The bytes of an array in order, as a list. -/
theorem toList_byteArray (bytes : ByteArray) : bytes.toList = bytes.data.toList := by
  have hloop (i : Nat) (read : List UInt8) : ByteArray.toList.loop bytes i read =
      read.reverse ++ bytes.data.toList.drop i := by
    fun_induction ByteArray.toList.loop bytes i read with
    | case1 i read hi ih =>
      have hlength : i < bytes.data.toList.length := hi
      have hget : bytes.get! i = bytes.data.toList[i] := getElem!_pos bytes.data i hi
      rw [ih, List.drop_eq_getElem_cons hlength, List.reverse_cons, List.append_assoc, hget]
      rfl
    | case2 i read hi =>
      have hlength : bytes.data.toList.length ≤ i := Nat.le_of_not_lt hi
      rw [List.drop_eq_nil_of_le hlength, List.append_nil]
  exact hloop 0 []

theorem toList_toUTF8_append (s t : String) :
    (s ++ t).toUTF8.toList = s.toUTF8.toList ++ t.toUTF8.toList := by
  show (s ++ t).toByteArray.toList = s.toByteArray.toList ++ t.toByteArray.toList
  rw [String.toByteArray_append, toList_byteArray, toList_byteArray, toList_byteArray,
    ByteArray.data_append, Array.toList_append]

theorem length_toUTF8 (s : String) : s.toUTF8.toList.length = s.utf8ByteSize := by
  rw [toList_byteArray]
  rfl

/-- The bytes of the line of a command. -/
def lineBytes (c : Command) : List UInt8 := c.line.toUTF8.toList

theorem length_lineBytes (c : Command) : (lineBytes c).length = c.line.utf8ByteSize :=
  length_toUTF8 _

theorem length_lineBytes_pos (c : Command) : 0 < (lineBytes c).length := by
  have hfeed : "\n".utf8ByteSize = 1 := rfl
  rw [length_lineBytes, Command.line, String.utf8ByteSize_append, hfeed]
  omega

/-- The bytes of a program are those of its lines. -/
theorem bytes_programText (commands : List Command) :
    (programText commands).toUTF8.toList = commands.flatMap lineBytes := by
  have hfold (out : String) : (commands.foldl (fun out c => out ++ c.line) out).toUTF8.toList =
      out.toUTF8.toList ++ commands.flatMap lineBytes := by
    induction commands generalizing out with
    | nil => exact (List.append_nil _).symm
    | cons c commands ih =>
      rw [List.foldl_cons, ih, toList_toUTF8_append, List.append_assoc]
      rfl
  exact (hfold "").trans
    (by rw [show "".toUTF8.toList = [] from ByteArray.toList_empty, List.nil_append])

/-! ### Sinks -/

namespace Sink

variable {s : Sink} {c : Command} {xs ys rest : List Command} {size : Nat}

/-- Writes commands, or as much of them as fits. -/
def writeAll (s : Sink) (commands : List Command) : Sink := commands.foldl write s

/-- Whether there is room for commands. -/
def Fits (s : Sink) (commands : List Command) : Prop :=
  ∀ size ∈ s.room, (commands.flatMap lineBytes).length ≤ size

/-- A command is cut only where the room ends. -/
def Sound (s : Sink) : Prop := s.cut = [] ∨ s.room = some 0

theorem writeAll_append : s.writeAll (xs ++ ys) = (s.writeAll xs).writeAll ys := List.foldl_append

theorem fits_nil : s.Fits [] := fun size _ => Nat.zero_le size

theorem fits_unlimited : unlimited.Fits xs := fun size hsize => absurd hsize (by simp [unlimited])

theorem room_write (s : Sink) (c : Command) :
    (s.write c).room = s.room.map fun size => size - (lineBytes c).length := by
  obtain ⟨room, commands, cut⟩ := s
  rw [length_lineBytes]
  cases room with
  | none => rfl
  | some size =>
    show (write ⟨some size, commands, cut⟩ c).room = some (size - c.line.utf8ByteSize)
    by_cases hsize : c.line.utf8ByteSize ≤ size
    · rw [write, if_pos hsize]
    · -- A command that does not fit takes up the room that there is.
      have hnone : size - c.line.utf8ByteSize = 0 := by omega
      rw [write, if_neg hsize, hnone]

theorem room_writeAll (s : Sink) (xs : List Command) :
    (s.writeAll xs).room = s.room.map fun size => size - (xs.flatMap lineBytes).length := by
  induction xs generalizing s with
  | nil => cases s with | mk room commands cut => cases room <;> rfl
  | cons c xs ih =>
    have hwrite : (s.writeAll (c :: xs)).room = _ := ih (s.write c)
    rw [hwrite, room_write, Option.map_map, List.flatMap_cons, List.length_append]
    congr 1
    funext size
    exact Nat.sub_sub _ _ _

theorem fits_append : s.Fits (xs ++ ys) ↔ s.Fits xs ∧ (s.writeAll xs).Fits ys := by
  unfold Fits
  rw [room_writeAll, List.flatMap_append, List.length_append]
  cases s.room with
  | none => simp
  | some size =>
    simp only [Option.mem_def, Option.map_some, Option.some.injEq, forall_eq']
    omega

theorem fits_singleton : s.Fits [c] ↔ s.hasRoomFor c = true := by
  unfold Fits hasRoomFor
  rw [List.flatMap_singleton, length_lineBytes]
  cases s.room with
  | none => simp
  | some size => simp

/-- **Commands that do not fit fill a sink.** -/
theorem full_of_not_fits (h : ¬s.Fits xs) : (s.writeAll xs).room = some 0 := by
  unfold Fits at h
  rw [room_writeAll]
  cases hroom : s.room with
  | none =>
    rw [hroom] at h
    exact absurd (fun size hsize => by cases hsize) h
  | some size =>
    rw [hroom] at h
    have hless : ¬(xs.flatMap lineBytes).length ≤ size :=
      fun hle => h fun _ hsize => Option.some.inj hsize ▸ hle
    exact congrArg some (Nat.sub_eq_zero_of_le (by omega))

/-- Where there is no room left, nothing is written. -/
theorem writeAll_of_full (h : s.room = some 0) : s.writeAll xs = s := by
  induction xs with
  | nil => rfl
  | cons c xs ih =>
    have hwrite : s.write c = s := by
      obtain ⟨room, commands, cut⟩ := s
      cases h
      have hsize : ¬c.line.utf8ByteSize ≤ 0 := by
        rw [← length_lineBytes]
        exact Nat.not_le.mpr (length_lineBytes_pos c)
      rw [write, if_neg hsize, List.take_zero, List.append_nil]
    show (s.write c).writeAll xs = s
    rw [hwrite]
    exact ih

/-- Behind commands that do not fit, nothing more is written. -/
theorem writeAll_append_of_not_fits (h : ¬s.Fits xs) : s.writeAll (xs ++ ys) = s.writeAll xs := by
  rw [writeAll_append, writeAll_of_full (full_of_not_fits h)]

/-! ### What is cut -/

theorem sound_write (h : s.Sound) : (s.write c).Sound := by
  obtain ⟨room, commands, cut⟩ := s
  rcases h with hcut | hfull
  · cases room with
    | none => exact .inl hcut
    | some size =>
      by_cases hsize : c.line.utf8ByteSize ≤ size
      · rw [write, if_pos hsize]
        exact .inl hcut
      · rw [write, if_neg hsize]
        exact .inr rfl
  · have hwrite : writeAll ⟨room, commands, cut⟩ [c] = ⟨room, commands, cut⟩ :=
      writeAll_of_full hfull
    replace hwrite : write ⟨room, commands, cut⟩ c = ⟨room, commands, cut⟩ := hwrite
    rw [hwrite]
    exact .inr hfull

theorem sound_writeAll (h : s.Sound) : (s.writeAll xs).Sound := by
  induction xs generalizing s with
  | nil => exact h
  | cons c xs ih => exact ih (sound_write h)

theorem bytes_eq (s : Sink) : s.bytes = s.commands.toList.flatMap lineBytes ++ s.cut := by
  rw [bytes, bytes_programText]

theorem bytes_write (h : s.Sound) (hroom : s.room = some size) :
    (s.write c).bytes = s.bytes ++ (lineBytes c).take size := by
  obtain ⟨room, commands, cut⟩ := s
  cases hroom
  rw [bytes_eq, bytes_eq]
  by_cases hsize : c.line.utf8ByteSize ≤ size
  · -- A command that fits has not been preceded by one that does not.
    have hcut : cut = [] := h.resolve_right fun hfull => by
      have hpos := length_lineBytes_pos c
      rw [length_lineBytes] at hpos
      cases hfull
      omega
    have htake : (lineBytes c).take size = lineBytes c :=
      List.take_of_length_le (by rwa [length_lineBytes])
    rw [write, if_pos hsize, hcut, htake, List.append_nil, List.append_nil, Array.toList_push,
      List.flatMap_append, List.flatMap_singleton]
  · rw [write, if_neg hsize, List.append_assoc]
    rfl

/-- **A sink with limited room takes as many bytes as there is room for.** -/
theorem bytes_writeAll (h : s.Sound) (hroom : s.room = some size) :
    (s.writeAll xs).bytes = s.bytes ++ (xs.flatMap lineBytes).take size := by
  induction xs generalizing s size with
  | nil => rw [List.flatMap_nil, List.take_nil, List.append_nil]; rfl
  | cons c xs ih =>
    have hrest : (s.write c).room = some (size - (lineBytes c).length) := by
      rw [room_write, hroom]; rfl
    have hwrite : (s.writeAll (c :: xs)).bytes = _ := ih (sound_write h) hrest
    rw [hwrite, bytes_write h hroom, List.flatMap_cons, List.take_append, List.append_assoc]

/-- A sink with unlimited room takes all bytes. -/
theorem bytes_writeAll_unlimited (xs : List Command) :
    (unlimited.writeAll xs).bytes = xs.flatMap lineBytes :=
  (VM.bytes_write_unlimited xs).trans (bytes_programText xs)

end Sink

end JackToolchain.Jack
