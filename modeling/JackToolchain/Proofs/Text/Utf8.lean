import Mathlib.Algebra.Group.Nat.Defs
import Mathlib.Data.List.Basic
import JackToolchain.Text.Encodings

/-!
# Texts and their bytes

Lossy decoding of the bytes of a text finds the text (`decodeLossy_encode`), so that texts with the
same bytes are the same.  An ASCII byte is a character of its own wherever it stands: it does not
come from lossy decoding unless it was there before (`mem_of_mem_decodeLossy`), and the bytes of a
text can be divided at it (`exists_of_encode_eq`).
-/

namespace JackToolchain.Text.Utf8

variable {b : UInt8} {bytes rest front behind : List UInt8} {c : Char} {cs : List Char}
  {text : String} {seen code missing n : Nat} {low high : UInt8}

/-! ### First bytes -/

theorem lead?_one (h : n < 0x80) : lead? (UInt8.ofNat n) = some ⟨0, 0x80, 0xBF, n⟩ := by
  have hbyte : (UInt8.ofNat n).toNat = n := by
    rw [UInt8.toNat_ofNat']
    omega
  unfold lead?
  dsimp only
  rw [hbyte, if_pos h]

theorem lead?_two (h : 2 ≤ n) (h' : n < 32) :
    lead? (UInt8.ofNat (n + 0xC0)) = some ⟨1, 0x80, 0xBF, n⟩ := by
  have hbyte : (UInt8.ofNat (n + 0xC0)).toNat = n + 0xC0 := by
    rw [UInt8.toNat_ofNat']
    omega
  unfold lead?
  dsimp only
  rw [hbyte, if_neg (by omega), if_neg (by omega), if_pos (by omega), Nat.add_sub_cancel]

theorem lead?_three : ∀ n < 16, lead? (UInt8.ofNat (n + 0xE0)) =
    some ⟨2, if n = 0 then 0xA0 else 0x80, if n = 13 then 0x9F else 0xBF, n⟩ := by
  decide

theorem lead?_four : ∀ n < 5, lead? (UInt8.ofNat (n + 0xF0)) =
    some ⟨3, if n = 0 then 0x90 else 0x80, if n = 4 then 0x8F else 0xBF, n⟩ := by
  decide

/-! ### The bytes that follow -/

/-- A byte that follows adds its six bits. -/
theorem following_cons (hn : n < 64) (hlow : low.toNat ≤ n + 0x80) (hhigh : n + 0x80 ≤ high.toNat) :
    following seen code (missing + 1) low high (UInt8.ofNat (n + 0x80) :: bytes) =
      following (seen + 1) (code * 64 + n) missing 0x80 0xBF bytes := by
  have hbyte : (UInt8.ofNat (n + 0x80)).toNat = n + 0x80 := by
    rw [UInt8.toNat_ofNat']
    omega
  have hbounds : (low ≤ UInt8.ofNat (n + 0x80) && UInt8.ofNat (n + 0x80) ≤ high) = true := by
    simp only [Bool.and_eq_true, decide_eq_true_eq, UInt8.le_iff_toNat_le, hbyte]
    exact ⟨hlow, hhigh⟩
  rw [following, if_pos hbounds, hbyte, Nat.add_sub_cancel]

theorem following_tail (seen code missing n : Nat) (bytes : List UInt8) :
    following seen code (missing + 1) 0x80 0xBF (UInt8.ofNat (n % 64 + 0x80) :: bytes) =
      following (seen + 1) (code * 64 + n % 64) missing 0x80 0xBF bytes := by
  have hn : n % 64 < 64 := Nat.mod_lt _ (by decide)
  refine following_cons hn (Nat.le_add_left _ _) ?_
  show n % 64 + 0x80 ≤ 0xBF
  omega

/-! ### Sequences of characters -/

section
variable {v : Nat}

theorem sequence_one (hc : Char.ofNat v = c) (h : v < 0x80) :
    sequence (UInt8.ofNat v) rest = .ok (c, rest) := by
  rw [sequence, lead?_one h, ← hc]
  rfl

theorem sequence_two (hc : Char.ofNat v = c) (h : 0x80 ≤ v) (h' : v < 0x800) :
    sequence (UInt8.ofNat (v / 64 % 32 + 0xC0)) (UInt8.ofNat (v % 64 + 0x80) :: rest) =
      .ok (c, rest) := by
  have hvalue : v / 64 % 32 * 64 + v % 64 = v := by omega
  rw [sequence, lead?_two (by omega) (by omega)]
  dsimp only
  rw [following_tail, hvalue, ← hc]
  rfl

/-- Three bytes are not for what two can say, nor for surrogates. -/
theorem sequence_three (hc : Char.ofNat v = c) (h : 0x800 ≤ v) (h' : v < 0x10000)
    (hvalid : v < 0xD800 ∨ 0xDFFF < v) : sequence (UInt8.ofNat (v / 4096 % 16 + 0xE0))
        (UInt8.ofNat (v / 64 % 64 + 0x80) :: UInt8.ofNat (v % 64 + 0x80) :: rest) =
      .ok (c, rest) := by
  have hvalue : (v / 4096 % 16 * 64 + v / 64 % 64) * 64 + v % 64 = v := by omega
  rw [sequence, lead?_three _ (Nat.mod_lt _ (by decide))]
  dsimp only
  rw [following_cons (Nat.mod_lt _ (by decide)), following_tail, hvalue, ← hc]
  · rfl
  · split
    · show 0xA0 ≤ _
      omega
    · exact Nat.le_add_left _ _
  · split
    · show _ ≤ 0x9F
      omega
    · show _ ≤ 0xBF
      omega

/-- Four bytes are not for what three can say, nor for more than there is. -/
theorem sequence_four (hc : Char.ofNat v = c) (h : 0x10000 ≤ v) (h' : v < 0x110000) :
    sequence (UInt8.ofNat (v / 262144 % 8 + 0xF0)) (UInt8.ofNat (v / 4096 % 64 + 0x80) ::
        UInt8.ofNat (v / 64 % 64 + 0x80) :: UInt8.ofNat (v % 64 + 0x80) :: rest) =
      .ok (c, rest) := by
  have hvalue : ((v / 262144 % 8 * 64 + v / 4096 % 64) * 64 + v / 64 % 64) * 64 + v % 64 = v := by
    omega
  rw [sequence, lead?_four _ (by omega)]
  dsimp only
  rw [following_cons (Nat.mod_lt _ (by decide)), following_tail, following_tail, hvalue, ← hc]
  · rfl
  · split
    · show 0x90 ≤ _
      omega
    · exact Nat.le_add_left _ _
  · split
    · show _ ≤ 0x8F
      omega
    · show _ ≤ 0xBF
      omega

end

/-- **A character is read from its bytes**, whatever follows. -/
theorem sequence_utf8EncodeChar (c : Char) (rest : List UInt8) :
    ∃ b bytes, String.utf8EncodeChar c = b :: bytes ∧
      sequence b (bytes ++ rest) = .ok (c, rest) := by
  have hchar : Char.ofNat c.val.toNat = c := Char.ofNat_toNat c
  have hvalid : c.val.toNat < 0xD800 ∨ 0xDFFF < c.val.toNat ∧ c.val.toNat < 0x110000 := c.valid
  unfold String.utf8EncodeChar
  dsimp only
  split
  · exact ⟨_, _, rfl, sequence_one hchar (by omega)⟩
  · split
    · exact ⟨_, _, rfl, sequence_two hchar (by omega) (by omega)⟩
    · split
      · exact ⟨_, _, rfl, sequence_three hchar (by omega) (by omega) (by omega)⟩
      · exact ⟨_, _, rfl, sequence_four hchar (by omega) (by omega)⟩

/-! ### Lossy decoding -/

section
variable {done : List Char}

theorem decodeLossyFrom_of_ok (h : sequence b bytes = .ok (c, rest)) :
    decodeLossyFrom done (b :: bytes) = decodeLossyFrom (c :: done) rest := by
  rw [decodeLossyFrom]
  split
  · next h' =>
    obtain ⟨rfl, rfl⟩ := Prod.mk.inj (Except.ok.inj (h'.symm.trans h))
    rfl
  · next h' => cases h'.symm.trans h
  · next h' => cases h'.symm.trans h

theorem decodeLossyFrom_of_incomplete (h : sequence b bytes = .error .incomplete) :
    decodeLossyFrom done (b :: bytes) = String.ofList ('\uFFFD' :: done).reverse := by
  rw [decodeLossyFrom]
  split
  · next h' => cases h'.symm.trans h
  · rfl
  · next h' => cases h'.symm.trans h

theorem decodeLossyFrom_of_invalid {length : Nat}
    (h : sequence b bytes = .error (.invalid length)) :
    decodeLossyFrom done (b :: bytes) =
      decodeLossyFrom ('\uFFFD' :: done) (bytes.drop (length - 1)) := by
  rw [decodeLossyFrom]
  split
  · next h' => cases h'.symm.trans h
  · next h' => cases h'.symm.trans h
  · next h' =>
    cases h'.symm.trans h
    rfl

theorem decodeLossyFrom_flatMap (done cs : List Char) :
    decodeLossyFrom done (cs.flatMap String.utf8EncodeChar) =
      String.ofList (done.reverse ++ cs) := by
  induction cs generalizing done with
  | nil => rw [List.flatMap_nil, decodeLossyFrom, List.append_nil]
  | cons c cs ih =>
    obtain ⟨b, bytes, hbytes, hsequence⟩ :=
      sequence_utf8EncodeChar c (cs.flatMap String.utf8EncodeChar)
    rw [List.flatMap_cons, hbytes, List.cons_append, decodeLossyFrom_of_ok hsequence, ih,
      List.reverse_cons, List.append_assoc]
    rfl

end

/-- **The bytes of a text are decoded to the text.** -/
theorem decodeLossy_encode (text : String) : decodeLossy (encode text) = text :=
  (decodeLossyFrom_flatMap [] text.toList).trans String.ofList_toList

theorem encode_injective : Function.Injective encode :=
  Function.LeftInverse.injective decodeLossy_encode

theorem encode_append (s t : String) : encode (s ++ t) = encode s ++ encode t := by
  unfold encode
  rw [String.toList_append, List.flatMap_append]

/-! ### ASCII bytes -/

/-- The bytes of a character are all behind ASCII, or there is only one. -/
theorem eq_of_mem_utf8EncodeChar (h : b ∈ String.utf8EncodeChar c) (hb : b.toNat < 0x80) :
    String.utf8EncodeChar c = [b] ∧ c.toNat = b.toNat := by
  have hlate (n : Nat) (hn : 0x80 ≤ n % 256) : b ≠ UInt8.ofNat n := by
    rintro rfl
    rw [UInt8.toNat_ofNat'] at hb
    omega
  unfold String.utf8EncodeChar at h ⊢
  dsimp only at h ⊢
  split
  · next hone =>
    rw [if_pos hone, List.mem_singleton] at h
    subst h
    refine ⟨rfl, ?_⟩
    show c.val.toNat = _
    rw [UInt8.toNat_ofNat']
    omega
  · next hone =>
    rw [if_neg hone] at h
    exfalso
    split at h
    · simp only [List.mem_cons, List.not_mem_nil, or_false] at h
      rcases h with h | h <;> exact hlate _ (by omega) h
    · split at h
      · simp only [List.mem_cons, List.not_mem_nil, or_false] at h
        rcases h with h | h | h <;> exact hlate _ (by omega) h
      · simp only [List.mem_cons, List.not_mem_nil, or_false] at h
        rcases h with h | h | h | h <;> exact hlate _ (by omega) h

/-- **A text can be divided at an ASCII byte.** -/
theorem exists_of_flatMap_eq (h : cs.flatMap String.utf8EncodeChar = front ++ b :: behind)
    (hb : b.toNat < 0x80) : ∃ x : List Char, front = x.flatMap String.utf8EncodeChar := by
  induction cs generalizing front with
  | nil => simp at h
  | cons c cs ih =>
    rw [List.flatMap_cons] at h
    rcases List.append_eq_append_iff.mp h with ⟨more, rfl, hrest⟩ | ⟨_ | ⟨d, more⟩, hchar, hrest⟩
    · obtain ⟨x, rfl⟩ := ih hrest
      exact ⟨c :: x, List.flatMap_cons.symm⟩
    · exact ⟨[c], by rw [List.flatMap_cons, hchar]; simp⟩
    · -- The byte is one of the character, so it is the character.
      obtain ⟨rfl, -⟩ := List.cons.inj hrest
      have hmem : b ∈ String.utf8EncodeChar c := by
        rw [hchar]
        exact List.mem_append_right _ List.mem_cons_self
      have hfront : front = [] := by
        rw [(eq_of_mem_utf8EncodeChar hmem hb).1] at hchar
        cases front with
        | nil => rfl
        | cons a front => simp at hchar
      exact ⟨[], hfront⟩

theorem exists_of_encode_eq (h : encode text = front ++ b :: behind) (hb : b.toNat < 0x80) :
    ∃ s, front = encode s := by
  obtain ⟨x, rfl⟩ := exists_of_flatMap_eq h hb
  exact ⟨String.ofList x, by rw [encode, String.toList_ofList]⟩

/-- What follows only makes a number greater. -/
theorem exists_of_following (h : following seen code missing low high bytes = .ok (c, rest)) :
    ∃ v, c = Char.ofNat v ∧ code * 64 ^ missing ≤ v := by
  induction missing generalizing seen code low high bytes with
  | zero =>
    simp only [following, Except.ok.injEq, Prod.mk.injEq] at h
    exact ⟨code, h.1.symm, by simp⟩
  | succ missing ih =>
    cases bytes with
    | nil => simp [following] at h
    | cons b bytes =>
      rw [following] at h
      split at h
      · obtain ⟨v, hv, hle⟩ := ih h
        refine ⟨v, hv, Nat.le_trans ?_ hle⟩
        rw [Nat.pow_succ', ← Nat.mul_assoc]
        exact Nat.mul_le_mul_right _ (Nat.le_add_right _ _)
      · cases h

theorem exists_of_following_succ
    (h : following seen code (missing + 1) low high bytes = .ok (c, rest)) :
    ∃ v, c = Char.ofNat v ∧ (code * 64 + (low.toNat - 0x80)) * 64 ^ missing ≤ v := by
  cases bytes with
  | nil => simp [following] at h
  | cons b bytes =>
    rw [following] at h
    split at h
    · next hbounds =>
      have hlow : low.toNat ≤ b.toNat := by
        simp only [Bool.and_eq_true, decide_eq_true_eq, UInt8.le_iff_toNat_le] at hbounds
        exact hbounds.1
      obtain ⟨v, hv, hle⟩ := exists_of_following h
      refine ⟨v, hv, Nat.le_trans (Nat.mul_le_mul_right _ ?_) hle⟩
      omega
    · cases h

/-- A byte announces an ASCII character, or bytes that follow and make up a greater number. -/
theorem of_lead? {l : Lead} (h : lead? b = some l) : (l.following = 0 ∧ l.bits = b.toNat) ∨
    ∃ missing, l.following = missing + 1 ∧
      0x80 ≤ (l.bits * 64 + (l.low.toNat - 0x80)) * 64 ^ missing := by
  have hlow : (0x80 : UInt8).toNat - 0x80 = 0 := rfl
  have hlow3 : (0xA0 : UInt8).toNat - 0x80 = 0x20 := rfl
  have hlow4 : (0x90 : UInt8).toNat - 0x80 = 0x10 := rfl
  unfold lead? at h
  dsimp only at h
  repeat' split at h
  all_goals cases h
  · exact .inl ⟨rfl, rfl⟩
  · refine .inr ⟨0, rfl, ?_⟩
    dsimp only
    rw [hlow]
    omega
  · exact .inr ⟨1, rfl, by rw [hlow3]; decide⟩
  · exact .inr ⟨1, rfl, by rw [hlow]; decide⟩
  · refine .inr ⟨1, rfl, ?_⟩
    dsimp only
    rw [hlow]
    omega
  · exact .inr ⟨2, rfl, by rw [hlow4]; decide⟩
  · refine .inr ⟨2, rfl, ?_⟩
    dsimp only
    rw [hlow]
    omega
  · exact .inr ⟨2, rfl, by rw [hlow]; decide⟩

/-- **A sequence of one byte is an ASCII character**, and a longer one is none. -/
theorem of_sequence (h : sequence b bytes = .ok (c, rest)) :
    c = Char.ofNat b.toNat ∨ ∃ v, c = Char.ofNat v ∧ 0x80 ≤ v := by
  unfold sequence at h
  split at h
  · cases h
  · next l hl =>
    rcases of_lead? hl with ⟨hfollowing, hbits⟩ | ⟨missing, hfollowing, hbits⟩
    · rw [hfollowing, hbits, following] at h
      cases h
      exact .inl rfl
    · rw [hfollowing] at h
      obtain ⟨v, hv, hle⟩ := exists_of_following_succ h
      exact .inr ⟨v, hv, Nat.le_trans hbits hle⟩

/-- What is left behind a sequence has been there before. -/
theorem suffix_of_following (h : following seen code missing low high bytes = .ok (c, rest)) :
    rest <:+ bytes := by
  induction missing generalizing seen code low high bytes with
  | zero =>
    simp only [following, Except.ok.injEq, Prod.mk.injEq] at h
    exact h.2 ▸ List.suffix_refl bytes
  | succ missing ih =>
    cases bytes with
    | nil => simp [following] at h
    | cons b bytes =>
      rw [following] at h
      split at h
      · exact (ih h).trans (List.suffix_cons b bytes)
      · cases h

theorem suffix_of_sequence (h : sequence b bytes = .ok (c, rest)) : rest <:+ bytes := by
  unfold sequence at h
  split at h
  · cases h
  · exact suffix_of_following h

theorem eq_of_ofNat_eq {v : Nat} (h : Char.ofNat v = c) (hc : c ≠ '\x00') : v = c.toNat := by
  subst h
  unfold Char.ofNat at hc ⊢
  by_cases hvalid : v.isValidChar
  · rw [dif_pos hvalid]
    rfl
  · rw [dif_neg hvalid] at hc
    exact absurd rfl hc

theorem of_mem_decodeLossyFrom {done : List Char} (hc : c ≠ '\x00') (hascii : c.toNat < 0x80)
    (h : c ∈ (decodeLossyFrom done bytes).toList) : c ∈ done ∨ UInt8.ofNat c.toNat ∈ bytes := by
  have hreplacement : c ≠ '\uFFFD' := by
    rintro rfl
    exact absurd hascii (by decide)
  induction done, bytes using decodeLossyFrom.induct with
  | case1 done =>
    rw [decodeLossyFrom, String.toList_ofList, List.mem_reverse] at h
    exact .inl h
  | case2 done b bytes d rest hsequence ih =>
    rw [decodeLossyFrom_of_ok hsequence] at h
    rcases ih h with hmem | hmem
    · rcases List.mem_cons.mp hmem with rfl | hmem
      · have hfirst : b = UInt8.ofNat c.toNat := by
          rcases of_sequence hsequence with hone | ⟨v, hv, hle⟩
          · rw [← eq_of_ofNat_eq hone.symm hc, UInt8.ofNat_toNat]
          · have hlate := eq_of_ofNat_eq hv.symm hc
            omega
        exact .inr (hfirst ▸ List.mem_cons_self)
      · exact .inl hmem
    · exact .inr (List.mem_cons_of_mem b ((suffix_of_sequence hsequence).subset hmem))
  | case3 done b bytes hsequence =>
    rw [decodeLossyFrom_of_incomplete hsequence, String.toList_ofList, List.mem_reverse] at h
    exact .inl ((List.mem_cons.mp h).resolve_left hreplacement)
  | case4 done b bytes length hsequence ih =>
    rw [decodeLossyFrom_of_invalid hsequence] at h
    rcases ih h with hmem | hmem
    · exact .inl ((List.mem_cons.mp hmem).resolve_left hreplacement)
    · exact .inr (List.mem_cons_of_mem b (List.mem_of_mem_drop hmem))

/-- **Lossy decoding adds no ASCII characters.** -/
theorem mem_of_mem_decodeLossy (hc : c ≠ '\x00') (hascii : c.toNat < 0x80)
    (h : c ∈ (decodeLossy bytes).toList) : UInt8.ofNat c.toNat ∈ bytes :=
  (of_mem_decodeLossyFrom hc hascii h).resolve_left List.not_mem_nil

/-- The ASCII bytes of a text are those of its characters. -/
theorem exists_of_mem_encode (h : b ∈ encode text) (hb : b.toNat < 0x80) :
    ∃ c ∈ text.toList, c.toNat = b.toNat := by
  obtain ⟨c, hc, hmem⟩ := List.mem_flatMap.mp h
  exact ⟨c, hc, (eq_of_mem_utf8EncodeChar hmem hb).2⟩

end JackToolchain.Text.Utf8
