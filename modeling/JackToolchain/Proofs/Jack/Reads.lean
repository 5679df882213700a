import JackToolchain.Proofs.Jack.Grammar
import JackToolchain.Proofs.Jack.Items
import JackToolchain.Jack.Parser

/-!
# What a reader reads

A reader with one token in view cannot see a whole sequence before it decides.  What makes its
decisions right is what may come behind: a reader of `L` is used where the rest of the source is to
be in some language `K`, and it is told that `K` begins with none of certain kinds.  Then it fits
(`Fits`):

* if it succeeds, it has consumed a sequence of `L`, and as far as the next token tells, nothing
  else than `K` can complete what has been consumed;
* if it fails, what stands before the item that it blames can be completed to `L * K`, but not
  together with that item.

Readers that fit can be put in a row, and then fit the product of their languages (`Fits.bind`).
The fuel of a reader is enough if it exceeds the number of items that are left.
-/

namespace JackToolchain.Jack

open Computability Grammar Reading

variable {α β : Type}

/-! ### Fitting -/

/-- The kinds of tokens. -/
def kinds (tokens : List Token) : List Kind := tokens.map (·.kind)

/-- An error is about an item. -/
def SyntaxError.Blames : SyntaxError → Item → Prop
  | .lexical e, .error e' => e = e'
  | .mismatch _ t, .ok t' => t = t'
  | .unexpected _ t, .ok t' => t = t'
  | _, _ => False

/-- An error is about the first item that cannot go on: the tokens in front of it begin a sequence
of the language, and together with it they do not. -/
def Stops (L : Language Kind) (items : List Item) (e : SyntaxError) : Prop :=
  ∃ (w : List Token) (item : Item) (rest : List Item), items = w.map .ok ++ item :: rest ∧
    (∃ z, kinds w ++ z ∈ L) ∧ e.Blames item ∧ ∀ t z, item = .ok t → kinds w ++ t.kind :: z ∉ L

/-- What a reader has done on a stream, where it had to read `L` and `K` was to come behind. -/
def Fits (L K : Language Kind) (s : TokenStream) : EStateM.Result SyntaxError TokenStream α → Prop
  | .ok _ s' => ∃ w : List Token, s.items = w.map .ok ++ s'.items ∧ s'.items ≠ [] ∧ kinds w ∈ L ∧
      ∀ t rest z, s'.items = .ok t :: rest → kinds w ++ t.kind :: z ∈ L * K → t.kind :: z ∈ K
  | .error e _ => Stops (L * K) s.items e

/-- What fits depends on nothing of a stream but the items that are left. -/
theorem Fits.of_items {L K : Language Kind} {s s' : TokenStream}
    {r : EStateM.Result SyntaxError TokenStream α} (h : Fits L K s' r)
    (hitems : s'.items = s.items) : Fits L K s r := by
  cases r with
  | ok a s'' =>
    unfold Fits at h ⊢
    rwa [← hitems]
  | error e s'' =>
    unfold Fits at h ⊢
    rwa [← hitems]

theorem Stops.append {L L' : Language Kind} {w : List Token} {items : List Item} {e : SyntaxError}
    (h : Stops L' items e) (hviable : ∀ z ∈ L', kinds w ++ z ∈ L)
    (hexact : ∀ t rest z, items = .ok t :: rest → kinds w ++ t.kind :: z ∈ L → t.kind :: z ∈ L') :
    Stops L (w.map .ok ++ items) e := by
  obtain ⟨w', item, rest, rfl, ⟨z, hz⟩, hblames, hstop⟩ := h
  refine ⟨w ++ w', item, rest, ?_, ⟨z, ?_⟩, hblames, ?_⟩
  · rw [List.map_append, List.append_assoc]
  · rw [kinds, List.map_append, List.append_assoc]
    exact hviable _ hz
  · intro t z hitem hmem
    rw [kinds, List.map_append, List.append_assoc] at hmem
    refine hstop t z hitem ?_
    cases w' with
    | nil =>
      subst hitem
      exact hexact t rest z rfl hmem
    | cons t' w' => exact hexact t' _ _ rfl hmem

/-- **Readers in a row.** -/
theorem Fits.bind {p : Reading α} {f : α → Reading β} {L₁ L₂ K : Language Kind} {s : TokenStream}
    (hp : Fits L₁ (L₂ * K) s (p s)) (hf : ∀ a s', p s = .ok a s' → Fits L₂ K s' (f a s')) :
    Fits (L₁ * L₂) K s ((p >>= f) s) := by
  cases hr : p s with
  | error e s' =>
    rw [hr] at hp
    rw [bind_of_error hr]
    unfold Fits
    rw [mul_assoc]
    exact hp
  | ok a s' =>
    rw [hr] at hp
    rw [bind_of_ok hr]
    obtain ⟨w, hitems, -, hw, hexact⟩ := hp
    have hnext := hf a s' hr
    cases hr' : f a s' with
    | error e s'' =>
      rw [hr'] at hnext
      unfold Fits
      rw [mul_assoc, hitems]
      exact Stops.append hnext (fun z hz => Language.append_mem_mul hw hz) hexact
    | ok b s'' =>
      rw [hr'] at hnext
      obtain ⟨w', hitems', hne, hw', hexact'⟩ := hnext
      refine ⟨w ++ w', ?_, hne, ?_, ?_⟩
      · rw [hitems, hitems', List.map_append, List.append_assoc]
      · rw [kinds, List.map_append]
        exact Language.append_mem_mul hw hw'
      · intro t rest z hrest hmem
        rw [kinds, List.map_append, List.append_assoc, mul_assoc] at hmem
        refine hexact' t rest z hrest ?_
        cases w' with
        | nil =>
          rw [List.map_nil, List.nil_append] at hitems'
          exact hexact t rest z (hitems'.trans hrest) hmem
        | cons t' w' => exact hexact t' _ _ hitems' hmem

/-- Where a token is consumed and a second one is in view, a language may be replaced by what is
left of it for the two of them. -/
theorem Fits.cons {L L' K : Language Kind} {s s' : TokenStream} {t t' : Token} {rest : List Item}
    {r : EStateM.Result SyntaxError TokenStream α} (hitems : s.items = .ok t :: s'.items)
    (hnext : s'.items = .ok t' :: rest) (hL : ∀ w ∈ L', t.kind :: w ∈ L)
    (hexact : ∀ z, t.kind :: t'.kind :: z ∈ L * K → t'.kind :: z ∈ L' * K) (h : Fits L' K s' r) :
    Fits L K s r := by
  have hsingle : s.items = [t].map .ok ++ s'.items := hitems
  have hcut (t'' : Token) (rest' : List Item) (z : List Kind) (heq : s'.items = .ok t'' :: rest')
      (hmem : kinds [t] ++ t''.kind :: z ∈ L * K) : t''.kind :: z ∈ L' * K := by
    rw [hnext] at heq
    cases heq
    exact hexact z hmem
  cases r with
  | error e s'' =>
    unfold Fits
    rw [hsingle]
    refine Stops.append h ?_ hcut
    intro z hz
    obtain ⟨u, hu, v, hv, rfl⟩ := Language.mem_mul.mp hz
    have hmem : (t.kind :: u) ++ v ∈ L * K := Language.append_mem_mul (hL u hu) hv
    exact hmem
  | ok a s'' =>
    obtain ⟨w, hitems', hne, hw, hexact'⟩ := h
    refine ⟨t :: w, ?_, hne, hL _ hw, ?_⟩
    · rw [hitems, hitems']
      rfl
    · intro t'' rest' z hrest hmem
      refine hexact' t'' rest' z hrest ?_
      cases w with
      | nil => exact hcut t'' rest' z (hitems'.trans hrest) hmem
      | cons t₁ w => exact hcut t₁ _ _ hitems' hmem

/-! ### Readers -/

/-- A reader reads a language, with fuel for fewer than `n` items, unless one of the kinds comes
behind. -/
def Reads (n : Nat) (p : Reading α) (L : Language Kind) (A : Set Kind) : Prop :=
  ∀ s K, s.items ≠ [] → s.items.length < n → Productive K → Avoids K A → Fits L K s (p s)

/-- A reader reads what of a language begins with a kind, which is in view. -/
def ReadsAt (k : Kind) (n : Nat) (p : Reading α) (L : Language Kind) (A : Set Kind) : Prop :=
  ∀ s K t rest, s.items = .ok t :: rest → t.kind = k → s.items.length < n → Productive K →
    Avoids K A → Fits L K s (p s)

section
variable {n m : Nat} {p : Reading α} {f : α → Reading β} {L L₁ L₂ K : Language Kind}
  {A A₁ A₂ : Set Kind}
variable {k : Kind}

theorem Reads.mono (h : Reads n p L A₁) (hm : m ≤ n) (hA : A₁ ⊆ A₂) : Reads m p L A₂ :=
  fun s K hne hlength hK hA₂ => h s K hne (Nat.lt_of_lt_of_le hlength hm) hK (hA₂.mono hA)

theorem Reads.zero : Reads 0 p L A := fun _ _ _ h => absurd h (Nat.not_lt_zero _)

theorem Reads.at (h : Reads n p L A) : ReadsAt k n p L A := by
  intro s K t rest hitems _
  refine h s K ?_
  rw [hitems]
  exact List.cons_ne_nil _ _

/-- A stream may have been looked at before a reader is used. -/
theorem ReadsAt.fits_of_items {s s' : TokenStream} {t : Token} {rest : List Item}
    (h : ReadsAt k n p L A) (hs : s'.items = s.items) (hitems : s.items = .ok t :: rest)
    (hk : t.kind = k) (hlength : s.items.length < n) (hK : Productive K) (hA : Avoids K A) :
    Fits L K s (p s') := by
  rw [← hs] at hitems hlength
  exact (h s' K t rest hitems hk hlength hK hA).of_items hs

/-- The items that a reader leaves, if it fits. -/
theorem Fits.items_left {s s' : TokenStream} {a : α} (h : Fits L K s (.ok a s')) :
    s'.items ≠ [] ∧ s'.items.length ≤ s.items.length ∧
      ([] ∉ L → s'.items.length < s.items.length) := by
  obtain ⟨w, hitems, hne, hw, -⟩ := h
  rw [hitems, List.length_append, List.length_map]
  refine ⟨hne, by omega, fun hnil => ?_⟩
  cases w with
  | nil => exact absurd hw hnil
  | cons t w =>
    rw [List.length_cons]
    omega

theorem Fits.then [Productive L₂] {s : TokenStream} (h : Fits L₁ (L₂ * K) s (p s))
    (hlength : s.items.length < n) (hf : ∀ a, Reads n (f a) L₂ A) (hK : Productive K)
    (hA : Avoids K A) : Fits (L₁ * L₂) K s ((p >>= f) s) := by
  refine h.bind fun a s' hr => ?_
  rw [hr] at h
  obtain ⟨hne, hle, -⟩ := h.items_left
  exact hf a s' K hne (Nat.lt_of_le_of_lt hle hlength) hK hA

/-- A reader behind one that consumes something needs less fuel. -/
theorem Fits.thenLess [Productive L₂] {s : TokenStream} (h : Fits L₁ (L₂ * K) s (p s))
    (hnil : [] ∉ L₁) (hlength : s.items.length < n) (hn : n ≤ m + 1) (hf : ∀ a, Reads m (f a) L₂ A)
    (hK : Productive K) (hA : Avoids K A) : Fits (L₁ * L₂) K s ((p >>= f) s) := by
  refine h.bind fun a s' hr => ?_
  rw [hr] at h
  obtain ⟨hne, -, hless⟩ := h.items_left
  have hless := hless hnil
  exact hf a s' K hne (by omega) hK hA

/-- **Readers in a row read the product.** -/
theorem Reads.bind [Productive L₂] (hp : Reads n p L₁ A₁) (hf : ∀ a, Reads n (f a) L₂ A₂)
    (hsep : ∀ K, Avoids K A₂ → Avoids (L₂ * K) A₁) : Reads n (p >>= f) (L₁ * L₂) A₂ :=
  fun s K hne hlength hK hA => (hp s _ hne hlength inferInstance (hsep K hA)).then hlength hf hK hA

theorem Reads.bindLess [Productive L₂] (hp : Reads n p L₁ A₁) (hnil : [] ∉ L₁) (hn : n ≤ m + 1)
    (hf : ∀ a, Reads m (f a) L₂ A₂) (hsep : ∀ K, Avoids K A₂ → Avoids (L₂ * K) A₁) :
    Reads n (p >>= f) (L₁ * L₂) A₂ :=
  fun s K hne hlength hK hA =>
    (hp s _ hne hlength inferInstance (hsep K hA)).thenLess hnil hlength hn hf hK hA

theorem ReadsAt.bindLess [Productive L₂] (hp : ReadsAt k n p L₁ A₁) (hnil : [] ∉ L₁)
    (hn : n ≤ m + 1) (hf : ∀ a, Reads m (f a) L₂ A₂)
    (hsep : ∀ K, Avoids K A₂ → Avoids (L₂ * K) A₁) : ReadsAt k n (p >>= f) (L₁ * L₂) A₂ :=
  fun s K t rest hitems hk hlength hK hA =>
    (hp s _ t rest hitems hk hlength inferInstance (hsep K hA)).thenLess hnil hlength hn hf hK hA

theorem Reads.pure (a : α) : Reads n (pure a) 1 A := by
  intro s K hne _ _ _
  refine ⟨[], rfl, hne, rfl, fun t rest z _ hmem => ?_⟩
  rw [one_mul] at hmem
  exact hmem

/-- What is read does not depend on what is made of it. -/
theorem Reads.map {g : α → β} (h : Reads n p L A) :
    Reads n (p >>= fun a => Pure.pure (g a)) L A := by
  have hmap := h.bind (fun a => Reads.pure (n := n) (A := A) (g a)) fun K hK => by rwa [one_mul]
  rwa [mul_one] at hmap

theorem ReadsAt.map {g : α → β} (h : ReadsAt k n p L A) :
    ReadsAt k n (p >>= fun a => Pure.pure (g a)) L A := by
  intro s K t rest hitems hk hlength hK hA
  have hmap :=
    (h s (1 * K) t rest hitems hk hlength (by rwa [one_mul]) (by rwa [one_mul])).then hlength
    (fun a => Reads.pure (A := A) (g a)) hK hA
  rwa [mul_one] at hmap

theorem Fits.discard {s : TokenStream} (h : Fits L K s (p s)) : Fits L K s ((discard p) s) := by
  cases hr : p s with
  | ok a s' =>
    rw [hr] at h
    rw [discard_of_ok hr]
    exact h
  | error e s' =>
    rw [hr] at h
    rw [discard_of_error hr]
    exact h

theorem Reads.discard (h : Reads n p L A) : Reads n (discard p) L A :=
  fun s K hne hlength hK hA => (h s K hne hlength hK hA).discard

theorem ReadsAt.discard (h : ReadsAt k n p L A) : ReadsAt k n (discard p) L A :=
  fun s K t rest hitems hk hlength hK hA => (h s K t rest hitems hk hlength hK hA).discard

/-! ### Single tokens -/

/-- A lexical error in view is what a reader fails with that looks at it. -/
theorem Stops.lexical {e : LexError} {rest : List Item} [Productive L] :
    Stops L (.error e :: rest) (.lexical e) := by
  obtain ⟨z, hz⟩ := Productive.exists_mem (L := L)
  exact ⟨[], .error e, rest, rfl, ⟨z, hz⟩, rfl, fun t z h => by cases h⟩

/-- A token in view with which no sequence of the language begins. -/
theorem Stops.inView {e : SyntaxError} {t : Token} {rest : List Item} [Productive L]
    (he : e.Blames (.ok t)) (h : ∀ z, t.kind :: z ∉ L) : Stops L (.ok t :: rest) e := by
  obtain ⟨z, hz⟩ := Productive.exists_mem (L := L)
  refine ⟨[], .ok t, rest, rfl, ⟨z, hz⟩, he, ?_⟩
  rintro t' z' ⟨⟩
  exact h z'

theorem ReadsAt.next (hk : k ≠ .eos) : ReadsAt k n next (tok k) ∅ := by
  rintro s K t rest hitems rfl _ _ _
  rw [next_of_ok hitems]
  have hrest := TokenStream.items_advance hitems
  refine ⟨[t], ?_, ?_, ⟨t.kind, rfl, rfl⟩, ?_⟩
  · rw [hitems, hrest]
    rfl
  · rw [hrest]
    exact TokenStream.rest_ne_nil hitems hk
  · intro t' rest' z _ hmem
    exact (cons_mem_tok_mul.mp hmem).2

theorem ReadsAt.unexpected {d : String} [Productive L]
    (h : ∀ K, Avoids K A → ∀ z, k :: z ∉ L * K) : ReadsAt k n (unexpected (α := α) d) L A := by
  rintro s K t rest hitems rfl _ _ hA
  unfold Reading.unexpected
  rw [bind_of_ok (peek_of_ok hitems)]
  show Stops (L * K) s.items _
  rw [hitems]
  exact .inView rfl (h K hA)

/-- A reader that decides by the kind of the token in view. -/
theorem Reads.peekKind {f : Kind → Reading α} [Productive L] (h : ∀ k, ReadsAt k n (f k) L A) :
    Reads n (peekKind >>= f) L A := by
  intro s K hne hlength hK hA
  cases hitems : s.items with
  | nil => exact absurd hitems hne
  | cons item rest =>
    cases item with
    | error e =>
      rw [bind_of_error (peekKind_of_error hitems)]
      show Stops (L * K) s.items _
      rw [hitems]
      exact .lexical
    | ok t =>
      rw [bind_of_ok (peekKind_of_ok hitems)]
      exact (h t.kind).fits_of_items s.items_looked hitems rfl hlength hK hA

/-- Where a token is in view, only what begins with it matters of a language. -/
theorem Fits.select {L' : Language Kind} {s : TokenStream} {t : Token} {rest : List Item}
    {r : EStateM.Result SyntaxError TokenStream α} (hitems : s.items = .ok t :: rest)
    (hle : ∀ w ∈ L', w ∈ L) (hexact : ∀ z, t.kind :: z ∈ L * K → t.kind :: z ∈ L' * K)
    (h : Fits L' K s r) : Fits L K s r := by
  have hcut (w : List Token) (t' : Token) (rest' : List Item) (z : List Kind)
      (heq : s.items = w.map .ok ++ .ok t' :: rest') (hmem : kinds w ++ t'.kind :: z ∈ L * K) :
      kinds w ++ t'.kind :: z ∈ L' * K := by
    rw [hitems] at heq
    cases w with
    | nil =>
      cases heq
      exact hexact z hmem
    | cons t₁ w =>
      cases heq
      exact hexact _ hmem
  cases r with
  | ok a s' =>
    obtain ⟨w, hitems', hne, hw, hexact'⟩ := h
    refine ⟨w, hitems', hne, hle _ hw, fun t' rest' z hrest hmem => hexact' t' rest' z hrest ?_⟩
    rw [hrest] at hitems'
    exact hcut w t' rest' z hitems' hmem
  | error e s' =>
    obtain ⟨w, item, rest', hitems', ⟨z, hz⟩, hblames, hstop⟩ := h
    refine ⟨w, item, rest', hitems', ⟨z, ?_⟩, hblames, ?_⟩
    · obtain ⟨u, hu, v, hv, heq⟩ := Language.mem_mul.mp hz
      rw [← heq]
      exact Language.append_mem_mul (hle u hu) hv
    · rintro t' z rfl hmem
      exact hstop t' z rfl (hcut w t' rest' z hitems' hmem)

theorem ReadsAt.select {L' : Language Kind} (h : ReadsAt k n p L' A) (hle : ∀ w ∈ L', w ∈ L)
    (hexact : ∀ K, Avoids K A → ∀ z, k :: z ∈ L * K → k :: z ∈ L' * K) : ReadsAt k n p L A := by
  rintro s K t rest hitems rfl hlength hK hA
  exact (h s K t rest hitems rfl hlength hK hA).select hitems hle (hexact K hA)

/-- A language without the empty sequence may be replaced by its part that begins with the kind in
view. -/
theorem ReadsAt.part {L' : Language Kind} (h : ReadsAt k n p L' A) (hle : ∀ w ∈ L', w ∈ L)
    (hnil : [] ∉ L) (hexact : ∀ z, k :: z ∈ L → k :: z ∈ L') : ReadsAt k n p L A := by
  refine h.select hle fun K _ z hz => ?_
  rcases cons_mem_mul hz with ⟨u, v, rfl, hu, hv⟩ | ⟨hempty, -⟩
  · have hmem : (k :: u) ++ v ∈ L' * K := Language.append_mem_mul (hexact u hu) hv
    exact hmem
  · exact absurd hempty hnil

/-- A reader reads what of a language begins with a kind, where the token behind the one in view is
of another given kind. -/
def ReadsAtTwo (k k' : Kind) (n : Nat) (p : Reading α) (L : Language Kind) (A : Set Kind) : Prop :=
  ∀ s K t t' rest, s.items = .ok t :: .ok t' :: rest → t.kind = k → t'.kind = k' →
    s.items.length < n → Productive K → Avoids K A → Fits L K s (p s)

/-- A reader that decides by the kind of the token behind the one in view. -/
theorem ReadsAt.peekSecond {f : Kind → Reading α} (hk : k ≠ .eos) (hone : [k] ∈ L)
    (h : ∀ k', ReadsAtTwo k k' n (f k') L A) : ReadsAt k n (Reading.peekSecond >>= f) L A := by
  rintro s K t rest hitems rfl hlength hK hA
  cases rest with
  | nil => exact absurd rfl (TokenStream.rest_ne_nil hitems hk)
  | cons item rest =>
    cases item with
    | error e =>
      rw [bind_of_error (peekSecond_of_error hitems)]
      show Stops (L * K) s.items _
      obtain ⟨z, hz⟩ := hK.exists_mem
      rw [hitems]
      exact ⟨[t], .error e, rest, rfl, ⟨z, Language.append_mem_mul hone hz⟩, rfl,
        fun t' z h => by cases h⟩
    | ok t' =>
      rw [bind_of_ok (peekSecond_of_ok hitems)]
      have hlooked := s.items_lookedBehind
      refine (h t'.kind s.lookedBehind K t t' rest ?_ rfl rfl ?_ hK hA).of_items hlooked
      · rwa [hlooked]
      · rwa [hlooked]

/-- The token in view has to be of a certain kind. -/
theorem Reads.expect (hk : k ≠ .eos) : Reads n (expect k) (tok k) ∅ := by
  intro s K hne hlength hK hA
  cases hitems : s.items with
  | nil => exact absurd hitems hne
  | cons item rest =>
    cases item with
    | error e =>
      unfold Reading.expect
      rw [bind_of_error (peek_of_error hitems)]
      show Stops _ s.items _
      rw [hitems]
      exact .lexical
    | ok t =>
      unfold Reading.expect
      rw [bind_of_ok (peek_of_ok hitems)]
      by_cases htk : t.kind = k
      · rw [if_pos htk]
        exact (ReadsAt.next hk).fits_of_items s.items_looked hitems htk hlength hK avoids_empty
      · rw [if_neg htk]
        show Stops _ s.items _
        rw [hitems]
        exact .inView rfl fun z hz => htk (cons_mem_tok_mul.mp hz).1

/-- A token of a certain kind, and what is read behind it. -/
theorem Reads.expectThen {f : Token → Reading α} [Productive L] (hk : k ≠ .eos) (hn : n ≤ m + 1)
    (hf : ∀ t, Reads m (f t) L A) :
    Reads n (Reading.expect k >>= f) (tok k * L) A :=
  (Reads.expect hk).bindLess nil_notMem_tok hn hf fun _ _ => avoids_empty

theorem Reads.discardThen {f : Unit → Reading α} [Productive L] (hk : k ≠ .eos) (hn : n ≤ m + 1)
    (hf : ∀ u, Reads m (f u) L A) :
    Reads n (Functor.discard (Reading.expect k) >>= f) (tok k * L) A :=
  (Reads.expect hk).discard.bindLess nil_notMem_tok hn hf fun _ _ => avoids_empty

/-- A last token. -/
theorem Reads.close {a : α} (hk : k ≠ .eos) :
    Reads n (Functor.discard (Reading.expect k) >>= fun _ => Pure.pure a) (tok k) A :=
  (Reads.expect hk).discard.map.mono le_rfl (Set.empty_subset A)

theorem ReadsAt.nextThen {f : Unit → Reading α} [Productive L] (hk : k ≠ .eos) (hn : n ≤ m + 1)
    (hf : ∀ u, Reads m (f u) L A) :
    ReadsAt k n (Functor.discard Reading.next >>= f) (tok k * L) A :=
  (ReadsAt.next hk).discard.bindLess nil_notMem_tok hn hf fun _ _ => avoids_empty

/-- A token is consumed while a second one is in view. -/
theorem ReadsAtTwo.expectThen {f : Token → Reading α} {L' : Language Kind} {k' : Kind}
    (hk : k ≠ .eos) (hf : ∀ t, Reads m (f t) L' A) (hn : n ≤ m + 1) (hL : ∀ w ∈ L', k :: w ∈ L)
    (hexact : ∀ K, Avoids K A → ∀ z, k :: k' :: z ∈ L * K → k' :: z ∈ L' * K) :
    ReadsAtTwo k k' n (Reading.expect k >>= f) L A := by
  rintro s K t t' rest hitems rfl rfl hlength hK hA
  have hlooked : s.looked.items = .ok t :: .ok t' :: rest := s.items_looked.trans hitems
  have hadvance := TokenStream.items_advance hlooked
  have hexpect : Reading.expect t.kind s = .ok t s.looked.advance := by
    unfold Reading.expect
    rw [bind_of_ok (peek_of_ok hitems), if_pos rfl]
    exact next_of_ok hlooked
  rw [bind_of_ok hexpect]
  refine Fits.cons (by rw [hadvance, hitems]) hadvance hL (hexact K hA)
    (hf t s.looked.advance K ?_ ?_ hK hA)
  · rw [hadvance]
    exact List.cons_ne_nil _ _
  · rw [hitems, List.length_cons] at hlength
    rw [hadvance]
    omega

/-- One of several tokens, and what is read behind it. -/
theorem ReadsAt.anyThen {f : Unit → Reading α} {S : Language Kind} [Productive L] (hk : k ≠ .eos)
    (hone : [k] ∈ S) (hS : ∀ z, k :: z ∈ S → z = []) (hnil : [] ∉ S) (hf : ∀ u, Reads m (f u) L A)
    (hn : n ≤ m + 1) : ReadsAt k n (Functor.discard Reading.next >>= f) (S * L) A := by
  refine (ReadsAt.nextThen hk hn hf).part (fun w hw => ?_) (nil_notMem_mul hnil) fun z hz => ?_
  · obtain ⟨rest, rfl, hrest⟩ := mem_tok_mul.mp hw
    exact Language.append_mem_mul hone hrest
  · rcases cons_mem_mul hz with ⟨u, v, rfl, hu, hv⟩ | ⟨hempty, -⟩
    · obtain rfl := hS u hu
      exact cons_mem_tok_mul.mpr ⟨rfl, hv⟩
    · exact absurd hempty hnil

/-- A token of a certain kind, if it is in view, decides what is read. -/
theorem Reads.acceptThen {f : Option Token → Reading α} [Productive L₁] [Productive L₂]
    (hk : k ≠ .eos) (hn : n ≤ m + 1) (hsome : ∀ t, Reads m (f (some t)) L₁ A)
    (hnone : Reads n (f none) L₂ A) (hsep : ∀ K, Avoids K A → Avoids (L₂ * K) {k}) :
    Reads n (Reading.accept k >>= f) (tok k * L₁ + L₂) A := by
  have hcases : Reading.accept k >>= f =
      Reading.peekKind >>= fun k' => if k' = k then Reading.next >>= fun t => f (some t)
      else f none := by
    unfold Reading.accept
    rw [bind_assoc]
    congr 1
    funext k'
    split
    · rw [bind_map_left]
    · rw [pure_bind]
  rw [hcases]
  refine .peekKind fun k' => ?_
  by_cases hkk : k' = k
  · subst hkk
    rw [if_pos rfl]
    have hread := (ReadsAt.next hk).bindLess nil_notMem_tok hn hsome fun _ _ => avoids_empty
    refine hread.select (fun w hw => Or.inl hw) fun K hA z hz => ?_
    rw [add_mul] at hz
    rcases hz with hz | hz
    · exact hz
    · exact absurd rfl (hsep K hA k' z hz)
  · rw [if_neg hkk]
    refine hnone.at.select (fun w hw => Or.inr hw) fun K _ z hz => ?_
    rw [add_mul, mul_assoc] at hz
    rcases hz with hz | hz
    · exact absurd (cons_mem_tok_mul.mp hz).1 hkk
    · exact hz

end

/-! ### Repetition -/

section
variable {n m : Nat} {item : Reading α} {L K : Language Kind} {A : Set Kind}

theorem mem_kstar_mul {z : List Kind} : z ∈ L∗ * K ↔ z ∈ K ∨ z ∈ L * (L∗ * K) := by
  have hunfold : K + L * (L∗ * K) = L∗ * K := by
    calc K + L * (L∗ * K) = (1 + L * L∗) * K := by rw [add_mul, one_mul, mul_assoc]
      _ = L∗ * K := by rw [Language.one_add_self_mul_kstar_eq_kstar]
  rw [← hunfold, Language.mem_add, hunfold]

/-- One round of a repetition, where the token in view begins another item. -/
theorem ReadsAt.again {k : Kind} {p : Reading α} {L' M : Language Kind} (h : ReadsAt k n p M A)
    (hM : L' * L∗ = M) (hle : ∀ w ∈ L', w ∈ L) (hexact : ∀ z, k :: z ∈ L → k :: z ∈ L')
    (hnil : [] ∉ L) (hk : k ∈ A) : ReadsAt k n p (L∗) A := by
  subst hM
  refine h.select (fun w hw => ?_) fun K hK z hz => ?_
  · obtain ⟨u, hu, v, hv, rfl⟩ := Language.mem_mul.mp hw
    rw [← Language.one_add_self_mul_kstar_eq_kstar]
    exact Or.inr (Language.append_mem_mul (hle u hu) hv)
  · rcases mem_kstar_mul.mp hz with hz | hz
    · exact absurd hk (hK k z hz)
    · rcases cons_mem_mul hz with ⟨u, v, rfl, hu, hv⟩ | ⟨hempty, -⟩
      · rw [mul_assoc]
        have hmem : (k :: u) ++ v ∈ L' * (L∗ * K) := Language.append_mem_mul (hexact u hu) hv
        exact hmem
      · exact absurd hempty hnil

/-- The end of a repetition, where the token in view begins no other item. -/
theorem ReadsAt.done {k : Kind} {a : α} (hk : ∀ z, k :: z ∉ L) (hnil : [] ∉ L) :
    ReadsAt k n (Pure.pure a) (L∗) A := by
  refine (Reads.pure a).at.select (fun w hw => ?_) fun K _ z hz => ?_
  · rw [Language.mem_one] at hw
    rw [hw]
    exact Language.nil_mem_kstar L
  · rw [one_mul]
    rcases mem_kstar_mul.mp hz with hz | hz
    · exact hz
    · rcases cons_mem_mul hz with ⟨u, v, -, hu, -⟩ | ⟨hempty, -⟩
      · exact absurd hu (hk u)
      · exact absurd hempty hnil

/-- `item (',' item)*` -/
theorem Reads.separatedFrom [Productive L] (hitem : Reads m item L A)
    (hcomma : Kind.symbol .comma ∉ A) (hn : n ≤ m) (done : List α) :
    Reads n (Parse.separatedFrom item n done) (L * (tok (.symbol .comma) * L)∗)
      (insert (.symbol .comma) A) := by
  induction n generalizing done with
  | zero => exact .zero
  | succ n ih =>
    have hstar : (tok (.symbol .comma) * L)∗ =
        tok (.symbol .comma) * (L * (tok (.symbol .comma) * L)∗) + 1 := by
      rw [← mul_assoc, add_comm, Language.one_add_self_mul_kstar_eq_kstar]
    have hmore {K : Language Kind} (hK : Avoids K (insert (.symbol .comma) A)) :
        Avoids ((tok (.symbol .comma) * L)∗ * K) A :=
      avoids_kstar_mul (avoids_tok_mul hcomma) (hK.mono (Set.subset_insert _ _))
    refine (hitem.mono hn subset_rfl).bind (fun x => ?_) fun K hK => hmore hK
    rw [hstar]
    refine .acceptThen (by decide) le_rfl (fun _ => ih (by omega) _) (.pure _) fun K hK => ?_
    rw [one_mul]
    exact hK.mono (Set.singleton_subset_iff.mpr (Set.mem_insert _ _))

/-- `item*` -/
theorem Reads.whileFrom {begins : Kind → Bool} [Productive L] (hitem : Reads m item L A)
    (hn : n ≤ m) (hnil : [] ∉ L) (hbegins : ∀ k z, k :: z ∈ L → begins k = true)
    (hsep : ∀ k ∈ A, begins k = false) (done : List α) :
    Reads n (Parse.whileFrom begins item n done) (L∗) (A ∪ {k | begins k = true}) := by
  induction n generalizing done with
  | zero => exact .zero
  | succ n ih =>
    have havoids : Avoids L A := by
      intro k z hz hk
      have htrue := hbegins k z hz
      rw [hsep k hk] at htrue
      cases htrue
    refine .peekKind fun k => ?_
    cases hk : begins k with
    | true =>
      have hround :=
        (hitem.mono hn subset_rfl).bindLess hnil le_rfl (fun x => ih (by omega) (x :: done))
        fun K hK => avoids_kstar_mul havoids (hK.mono Set.subset_union_left)
      exact hround.at.again rfl (fun w hw => hw) (fun z hz => hz) hnil (Or.inr hk)
    | false =>
      refine .done (fun z hz => ?_) hnil
      rw [hbegins k z hz] at hk
      cases hk

/-- A condition on the token in view decides between two readers. -/
theorem Reads.choice {c : Kind → Prop} [DecidablePred c] {L₁ L₂ : Language Kind} [Productive L₁]
    {p q : Reading α} (hp : Reads n p L₁ A) (hq : Reads n q L₂ A)
    (h₁ : ∀ K, Avoids K A → Avoids (L₁ * K) {k | ¬ c k})
    (h₂ : ∀ K, Avoids K A → Avoids (L₂ * K) {k | c k}) :
    Reads n (Reading.peekKind >>= fun k => if c k then p else q) (L₁ + L₂) A := by
  refine .peekKind fun k => ?_
  by_cases hk : c k
  · rw [if_pos hk]
    refine hp.at.select (fun w hw => Or.inl hw) fun K hK z hz => ?_
    rw [add_mul] at hz
    rcases hz with hz | hz
    · exact hz
    · exact absurd hk (h₂ K hK k z hz)
  · rw [if_neg hk]
    refine hq.at.select (fun w hw => Or.inr hw) fun K hK z hz => ?_
    rw [add_mul] at hz
    rcases hz with hz | hz
    · exact absurd hk (h₁ K hK k z hz)
    · exact hz

/-- `[item]` in front of a certain kind, which begins no item. -/
theorem Reads.optionBefore {close : Kind} {p q : Reading α} (hp : Reads n p L A) (hA : close ∉ A)
    (hq : Reads n q 1 {k | k ≠ close}) (hL : ∀ z, close :: z ∉ L) (hnil : [] ∉ L) :
    Reads n (Reading.peekKind >>= fun k => if k = close then q else p) (1 + L) {k | k ≠ close} := by
  refine .choice (c := fun k => k = close) hq
    (hp.mono le_rfl fun k hk => ne_of_mem_of_not_mem hk hA)
    (fun K hK => ?_) fun K _ => avoids_mul (fun k z hz hk => ?_) fun h => absurd h hnil
  · rwa [one_mul]
  · cases hk
    exact hL z hz

end

end JackToolchain.Jack
