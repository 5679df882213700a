/-!
# Characters of a text

What holds of all characters of a text is decided by looking at the text.

A lexer reads as many characters of a kind as there are.  What it reads is determined by two facts:
all of its characters are of the kind, and the next one is not.
-/

namespace JackToolchain.Text

/-! ### Deciding -/

-- There are finitely many characters, and without these instances all of them would be tried.

instance decidableForallMem (p : Char → Prop) [DecidablePred p] (cs : List Char) :
    Decidable (∀ c ∈ cs, p c) :=
  List.decidableBAll p cs

instance decidableForallMemOption (p : Char → Prop) [DecidablePred p] :
    (c? : Option Char) → Decidable (∀ c ∈ c?, p c)
  | none => isTrue nofun
  | some c => decidable_of_iff (p c) ⟨fun h _ hd => Option.mem_some_iff.mp hd ▸ h, fun h => h c rfl⟩

/-! ### Longest runs -/

variable {p : Char → Bool} {xs rest : List Char}

theorem takeWhile_run (hxs : ∀ c ∈ xs, p c = true) (hrest : ∀ c ∈ rest.head?, p c = false) :
    (xs ++ rest).takeWhile p = xs := by
  rw [List.takeWhile_append_of_pos hxs]
  cases rest with
  | nil => exact List.append_nil xs
  | cons c cs =>
    rw [List.takeWhile_cons_of_neg (Bool.eq_false_iff.mp (hrest c rfl)), List.append_nil]

theorem dropWhile_run (hxs : ∀ c ∈ xs, p c = true) (hrest : ∀ c ∈ rest.head?, p c = false) :
    (xs ++ rest).dropWhile p = rest := by
  rw [List.dropWhile_append_of_pos hxs]
  cases rest with
  | nil => rfl
  | cons c cs => exact List.dropWhile_cons_of_neg (Bool.eq_false_iff.mp (hrest c rfl))

theorem of_mem_takeWhile {c : Char} (h : c ∈ xs.takeWhile p) : p c = true :=
  List.all_eq_true.mp List.all_takeWhile c h

theorem of_head?_dropWhile {c : Char} (h : c ∈ (xs.dropWhile p).head?) : p c = false := by
  have hhead := List.head?_dropWhile_not p xs
  rw [Option.mem_def.mp h] at hhead
  exact hhead

end JackToolchain.Text
