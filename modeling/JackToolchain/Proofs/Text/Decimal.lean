import JackToolchain.Text.Lines

/-!
# Numbers are read as they are printed

Numbers are printed in decimal digits.  What is printed is made of digits, has at least one, and
spells the number (`decimalValue_toString`), so that different numbers are printed differently.
-/

namespace JackToolchain.Text

theorem toList_toString (n : Nat) : (toString n).toList = Nat.toDigits 10 n := Nat.toList_repr

theorem decimalValue_eq (digits : List Char) :
    decimalValue digits = Nat.ofDigitChars 10 digits 0 := by
  rw [Nat.ofDigitChars_eq_foldl]
  unfold decimalValue
  congr 1
  funext value c
  rw [Nat.mul_comm]

/-- **A printed number spells the number.** -/
theorem decimalValue_toString (n : Nat) : decimalValue (toString n).toList = n := by
  rw [toList_toString, decimalValue_eq, Nat.ofDigitChars_ten_toDigits]

theorem toString_inj {n k : Nat} (h : toString n = toString k) : n = k := by
  have hvalue := congrArg (fun text => decimalValue (String.toList text)) h
  rw [decimalValue_toString, decimalValue_toString] at hvalue
  exact hvalue

theorem isDigit_of_mem_toString {n : Nat} {c : Char} (h : c ∈ (toString n).toList) :
    c.isDigit = true := by
  rw [toList_toString] at h
  exact Nat.isDigit_of_mem_toDigits (by decide) (by decide) h

theorem toList_toString_ne_nil (n : Nat) : (toString n).toList ≠ [] := by
  rw [toList_toString]
  exact Nat.toDigits_ne_nil

end JackToolchain.Text
