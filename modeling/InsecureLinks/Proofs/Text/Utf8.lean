import Mathlib
import InsecureLinks.Text.Utf8

/-!
# Reading UTF-8 undoes writing it

Bytes are read as the text `t` exactly if they are what `t` is written as (`decode_eq_ok_iff`), so
nothing is lost when a file is read as text and written again.  Reading goes character by
character, and a single step is described twice: `step_encodeChar` says that the bytes of a
character are read as that character, `encodeChar_of_step` that only those are.

The comparisons of bytes are turned into comparisons of numbers once, in the first section; after
that every case is linear arithmetic.
-/

namespace InsecureLinks.Utf8

/-! ## Bytes as numbers -/

theorem toNat_ofNat_of_lt {n : ℕ} (h : n < 256) : (UInt8.ofNat n).toNat = n := by
  rw [UInt8.toNat_ofNat']
  omega

theorem eq_ofNat {b : UInt8} {n : ℕ} (h : b.toNat = n) : b = UInt8.ofNat n := by
  rw [← h, UInt8.ofNat_toNat]

theorem isContinuation_iff (b : UInt8) :
    isContinuation b = true ↔ 0x80 ≤ b.toNat ∧ b.toNat < 0xC0 := by
  simp [isContinuation, UInt8.le_iff_toNat_le, UInt8.lt_iff_toNat_lt]

theorem isSecondOfThree_iff (lead b : UInt8) :
    isSecondOfThree lead b = true ↔ 0x80 ≤ b.toNat ∧ b.toNat < 0xC0 ∧
      (lead.toNat = 0xE0 → 0xA0 ≤ b.toNat) ∧ (lead.toNat = 0xED → b.toNat < 0xA0) := by
  have hlow : lead = 0xE0 ↔ lead.toNat = 0xE0 := by rw [← UInt8.toNat_inj]; rfl
  have hhigh : lead = 0xED ↔ lead.toNat = 0xED := by rw [← UInt8.toNat_inj]; rfl
  have hb : b < 0xA0 ↔ b.toNat < 0xA0 := UInt8.lt_iff_toNat_lt
  unfold isSecondOfThree
  by_cases h : b < 0xA0
  · grind [isContinuation_iff]
  · grind [isContinuation_iff]

theorem isSecondOfFour_iff (lead b : UInt8) :
    isSecondOfFour lead b = true ↔ 0x80 ≤ b.toNat ∧ b.toNat < 0xC0 ∧
      (lead.toNat = 0xF0 → 0x90 ≤ b.toNat) ∧ (lead.toNat = 0xF4 → b.toNat < 0x90) := by
  have hlow : lead = 0xF0 ↔ lead.toNat = 0xF0 := by rw [← UInt8.toNat_inj]; rfl
  have hhigh : lead = 0xF4 ↔ lead.toNat = 0xF4 := by rw [← UInt8.toNat_inj]; rfl
  have hb : b < 0x90 ↔ b.toNat < 0x90 := UInt8.lt_iff_toNat_lt
  unfold isSecondOfFour
  by_cases h : b < 0x90
  · grind [isContinuation_iff]
  · grind [isContinuation_iff]

/-! ## One step

Each of the four widths has its own case, told apart by the first byte. -/

theorem step_one {lead : UInt8} (rest : Bytes) (h : lead.toNat < 0x80) :
    step lead rest = .char (Char.ofNat lead.toNat) 1 := by
  simp [step, UInt8.lt_iff_toNat_lt, h]

theorem step_two {lead b : UInt8} (rest : Bytes) (hl : 0xC2 ≤ lead.toNat)
    (hu : lead.toNat < 0xE0) (hb : isContinuation b = true) :
    step lead (b :: rest) = .char (Char.ofNat (lead.toNat % 0x20 * 0x40 + payload b)) 2 := by
  have h₁ : ¬lead.toNat < 0x80 := by omega
  have h₂ : ¬lead.toNat < 0xC2 := by omega
  simp [step, UInt8.lt_iff_toNat_lt, h₁, h₂, hu, hb]

theorem step_three {lead b c : UInt8} (rest : Bytes) (hl : 0xE0 ≤ lead.toNat)
    (hu : lead.toNat < 0xF0) (hb : isSecondOfThree lead b = true)
    (hc : isContinuation c = true) :
    step lead (b :: c :: rest) =
      .char (Char.ofNat ((lead.toNat % 0x10 * 0x40 + payload b) * 0x40 + payload c)) 3 := by
  have h₁ : ¬lead.toNat < 0x80 := by omega
  have h₂ : ¬lead.toNat < 0xC2 := by omega
  have h₃ : ¬lead.toNat < 0xE0 := by omega
  simp [step, UInt8.lt_iff_toNat_lt, h₁, h₂, h₃, hu, hb, hc]

theorem step_four {lead b c d : UInt8} (rest : Bytes) (hl : 0xF0 ≤ lead.toNat)
    (hu : lead.toNat < 0xF5) (hb : isSecondOfFour lead b = true)
    (hc : isContinuation c = true) (hd : isContinuation d = true) :
    step lead (b :: c :: d :: rest) =
      .char (Char.ofNat
        (((lead.toNat % 0x08 * 0x40 + payload b) * 0x40 + payload c) * 0x40 + payload d)) 4 := by
  have h₁ : ¬lead.toNat < 0x80 := by omega
  have h₂ : ¬lead.toNat < 0xC2 := by omega
  have h₃ : ¬lead.toNat < 0xE0 := by omega
  have h₄ : ¬lead.toNat < 0xF0 := by omega
  simp [step, UInt8.lt_iff_toNat_lt, h₁, h₂, h₃, h₄, hu, hb, hc, hd]

/-- A step gives a character only in one of the four ways. -/
theorem step_cases {lead : UInt8} {rest : Bytes} {x : Char} {w : ℕ}
    (h : step lead rest = .char x w) :
    (lead.toNat < 0x80 ∧ x = Char.ofNat lead.toNat ∧ w = 1) ∨
    (∃ b more, rest = b :: more ∧ 0xC2 ≤ lead.toNat ∧ lead.toNat < 0xE0 ∧
      isContinuation b = true ∧ x = Char.ofNat (lead.toNat % 0x20 * 0x40 + payload b) ∧ w = 2) ∨
    (∃ b c more, rest = b :: c :: more ∧ 0xE0 ≤ lead.toNat ∧ lead.toNat < 0xF0 ∧
      isSecondOfThree lead b = true ∧ isContinuation c = true ∧
      x = Char.ofNat ((lead.toNat % 0x10 * 0x40 + payload b) * 0x40 + payload c) ∧ w = 3) ∨
    (∃ b c d more, rest = b :: c :: d :: more ∧ 0xF0 ≤ lead.toNat ∧ lead.toNat < 0xF5 ∧
      isSecondOfFour lead b = true ∧ isContinuation c = true ∧ isContinuation d = true ∧
      x = Char.ofNat
        (((lead.toNat % 0x08 * 0x40 + payload b) * 0x40 + payload c) * 0x40 + payload d) ∧
      w = 4) := by
  unfold step at h
  simp only [UInt8.lt_iff_toNat_lt, UInt8.reduceToNat] at h
  split at h
  · cases h
    exact .inl ⟨‹_›, rfl, rfl⟩
  split at h
  · cases h
  split at h
  · refine .inr (.inl ?_)
    rcases rest with _ | ⟨b, more⟩
    · cases h
    · simp only at h
      split at h
      · cases h
        exact ⟨b, more, rfl, by omega, by omega, ‹_›, rfl, rfl⟩
      · cases h
  split at h
  · refine .inr (.inr (.inl ?_))
    rcases rest with _ | ⟨b, _ | ⟨c, more⟩⟩
    · cases h
    · simp only at h
      split at h <;> cases h
    · simp only at h
      split_ifs at h with hb hc
      cases h
      exact ⟨b, c, more, rfl, by omega, by omega, by simpa using hb, by simpa using hc, rfl, rfl⟩
  split at h
  · refine .inr (.inr (.inr ?_))
    rcases rest with _ | ⟨b, _ | ⟨c, _ | ⟨d, more⟩⟩⟩
    · cases h
    · simp only at h
      split at h <;> cases h
    · simp only at h
      split_ifs at h
    · simp only at h
      split_ifs at h with hb hc hd
      cases h
      exact ⟨b, c, d, more, rfl, by omega, by omega, by simpa using hb, by simpa using hc,
        by simpa using hd, rfl, rfl⟩
  · cases h

/-! ## Characters -/

theorem toNat_ofNat_char {n : ℕ} (h : n < 0xD800 ∨ 0xDFFF < n ∧ n < 0x110000) :
    (Char.ofNat n).toNat = n := by
  rw [Char.toNat_ofNat, if_pos h]

theorem encodeChar_one {x : Char} (h : x.toNat < 0x80) :
    encodeChar x = [UInt8.ofNat x.toNat] := by
  simp [encodeChar, h]

theorem encodeChar_two {x : Char} (hl : 0x80 ≤ x.toNat) (hu : x.toNat < 0x800) :
    encodeChar x = [UInt8.ofNat (0xC0 + x.toNat / 0x40), UInt8.ofNat (0x80 + x.toNat % 0x40)] := by
  simp only [encodeChar]
  rw [if_neg (by omega), if_pos hu]

theorem encodeChar_three {x : Char} (hl : 0x800 ≤ x.toNat) (hu : x.toNat < 0x10000) :
    encodeChar x = [UInt8.ofNat (0xE0 + x.toNat / 0x1000),
      UInt8.ofNat (0x80 + x.toNat / 0x40 % 0x40), UInt8.ofNat (0x80 + x.toNat % 0x40)] := by
  simp only [encodeChar]
  rw [if_neg (by omega), if_neg (by omega), if_pos hu]

theorem encodeChar_four {x : Char} (hl : 0x10000 ≤ x.toNat) :
    encodeChar x = [UInt8.ofNat (0xF0 + x.toNat / 0x40000),
      UInt8.ofNat (0x80 + x.toNat / 0x1000 % 0x40),
      UInt8.ofNat (0x80 + x.toNat / 0x40 % 0x40), UInt8.ofNat (0x80 + x.toNat % 0x40)] := by
  simp only [encodeChar]
  rw [if_neg (by omega), if_neg (by omega), if_neg (by omega)]

/-- The bytes of a character are read as that character, whatever follows. -/
theorem step_encodeChar (x : Char) (rest : Bytes) :
    ∃ lead more, encodeChar x = lead :: more ∧
      step lead (more ++ rest) = .char x (more.length + 1) := by
  have hv : x.toNat < 0xD800 ∨ 0xDFFF < x.toNat ∧ x.toNat < 0x110000 := x.valid
  have char_eq {n : ℕ} (h : n = x.toNat) : Char.ofNat n = x := by rw [h, Char.ofNat_toNat]
  rcases Nat.lt_or_ge x.toNat 0x80 with h₁ | h₁
  · have hl := toNat_ofNat_of_lt (n := x.toNat) (by omega)
    refine ⟨_, _, encodeChar_one h₁, ?_⟩
    rw [List.nil_append, step_one rest (by omega), hl, char_eq rfl]
    rfl
  rcases Nat.lt_or_ge x.toNat 0x800 with h₂ | h₂
  · have hl := toNat_ofNat_of_lt (n := 0xC0 + x.toNat / 0x40) (by omega)
    have hb := toNat_ofNat_of_lt (n := 0x80 + x.toNat % 0x40) (by omega)
    refine ⟨_, _, encodeChar_two h₁ h₂, ?_⟩
    rw [List.cons_append, step_two _ (by omega) (by omega) ((isContinuation_iff _).2 (by omega)),
      payload, hl, hb, char_eq (by omega)]
    rfl
  rcases Nat.lt_or_ge x.toNat 0x10000 with h₃ | h₃
  · have hl := toNat_ofNat_of_lt (n := 0xE0 + x.toNat / 0x1000) (by omega)
    have hb := toNat_ofNat_of_lt (n := 0x80 + x.toNat / 0x40 % 0x40) (by omega)
    have hc := toNat_ofNat_of_lt (n := 0x80 + x.toNat % 0x40) (by omega)
    refine ⟨_, _, encodeChar_three h₂ h₃, ?_⟩
    rw [List.cons_append, List.cons_append,
      step_three _ (by omega) (by omega) ((isSecondOfThree_iff _ _).2 (by omega))
        ((isContinuation_iff _).2 (by omega)),
      payload, payload, hl, hb, hc, char_eq (by omega)]
    rfl
  · have hl := toNat_ofNat_of_lt (n := 0xF0 + x.toNat / 0x40000) (by omega)
    have hb := toNat_ofNat_of_lt (n := 0x80 + x.toNat / 0x1000 % 0x40) (by omega)
    have hc := toNat_ofNat_of_lt (n := 0x80 + x.toNat / 0x40 % 0x40) (by omega)
    have hd := toNat_ofNat_of_lt (n := 0x80 + x.toNat % 0x40) (by omega)
    refine ⟨_, _, encodeChar_four h₃, ?_⟩
    rw [List.cons_append, List.cons_append, List.cons_append,
      step_four _ (by omega) (by omega) ((isSecondOfFour_iff _ _).2 (by omega))
        ((isContinuation_iff _).2 (by omega)) ((isContinuation_iff _).2 (by omega)),
      payload, payload, payload, hl, hb, hc, hd, char_eq (by omega)]
    rfl

/-- What is read as a character are the bytes of that character. -/
theorem encodeChar_of_step {lead : UInt8} {rest : Bytes} {x : Char} {w : ℕ}
    (h : step lead rest = .char x w) :
    lead :: rest = encodeChar x ++ rest.drop (w - 1) := by
  have hlead := lead.toNat_lt
  obtain ⟨hl, rfl, rfl⟩ | ⟨b, more, rfl, hl, hu, hb, rfl, rfl⟩ |
    ⟨b, c, more, rfl, hl, hu, hb, hc, rfl, rfl⟩ |
    ⟨b, c, d, more, rfl, hl, hu, hb, hc, hd, rfl, rfl⟩ := step_cases h
  · have hn := toNat_ofNat_char (n := lead.toNat) (by omega)
    rw [encodeChar_one (by omega), hn, ← eq_ofNat rfl]
    rfl
  · rw [isContinuation_iff] at hb
    unfold payload
    have hn := toNat_ofNat_char (n := lead.toNat % 0x20 * 0x40 + b.toNat % 0x40) (by omega)
    rw [encodeChar_two (by omega) (by omega), hn, ← eq_ofNat (b := lead) (by omega),
      ← eq_ofNat (b := b) (by omega)]
    rfl
  · rw [isSecondOfThree_iff] at hb
    rw [isContinuation_iff] at hc
    unfold payload
    have hn := toNat_ofNat_char
      (n := (lead.toNat % 0x10 * 0x40 + b.toNat % 0x40) * 0x40 + c.toNat % 0x40) (by omega)
    rw [encodeChar_three (by omega) (by omega), hn, ← eq_ofNat (b := lead) (by omega),
      ← eq_ofNat (b := b) (by omega), ← eq_ofNat (b := c) (by omega)]
    rfl
  · rw [isSecondOfFour_iff] at hb
    rw [isContinuation_iff] at hc hd
    unfold payload
    have hn := toNat_ofNat_char
      (n := ((lead.toNat % 0x08 * 0x40 + b.toNat % 0x40) * 0x40 + c.toNat % 0x40) * 0x40 +
        d.toNat % 0x40) (by omega)
    rw [encodeChar_four (by omega), hn, ← eq_ofNat (b := lead) (by omega),
      ← eq_ofNat (b := b) (by omega), ← eq_ofNat (b := c) (by omega),
      ← eq_ofNat (b := d) (by omega)]
    rfl

/-! ## Texts -/

@[simp] theorem encode_nil : encode [] = [] := rfl

@[simp] theorem encode_cons (c : Char) (t : Text) : encode (c :: t) = encodeChar c ++ encode t :=
  rfl

@[simp] theorem encode_append (s t : Text) : encode (s ++ t) = encode s ++ encode t :=
  List.flatMap_append

theorem decodeFrom_encode (t : Text) (position : ℕ) : decodeFrom position (encode t) = .ok t := by
  induction t generalizing position with
  | nil => simp [decodeFrom]
  | cons c t ih =>
    obtain ⟨lead, more, hc, hstep⟩ := step_encodeChar c (encode t)
    rw [encode_cons, hc, List.cons_append, decodeFrom, hstep]
    simp [ih]

theorem encode_of_decodeFrom {position : ℕ} {b : Bytes} {t : Text}
    (h : decodeFrom position b = .ok t) : encode t = b := by
  induction hn : b.length using Nat.strong_induction_on generalizing position b t with
  | _ n ih =>
    rcases b with _ | ⟨lead, rest⟩
    · rw [decodeFrom] at h
      cases h
      rfl
    · rw [decodeFrom] at h
      split at h
      · cases h
      · next x w hstep =>
        split at h
        · next t' ht' =>
          cases h
          have hshort : (rest.drop (w - 1)).length < n := by
            rw [← hn, List.length_drop, List.length_cons]
            omega
          rw [encode_cons, ih _ hshort ht' rfl, ← encodeChar_of_step hstep]
        · cases h

/-- Bytes are read as a text exactly if they are what it is written as. -/
theorem decode_eq_ok_iff {b : Bytes} {t : Text} : decode b = .ok t ↔ b = encode t :=
  ⟨fun h => (encode_of_decodeFrom h).symm, fun h => h ▸ decodeFrom_encode t 0⟩

@[simp] theorem decode_encode (t : Text) : decode (encode t) = .ok t :=
  decode_eq_ok_iff.2 rfl

theorem encode_injective : Function.Injective encode := by
  intro s t h
  have hs := decode_encode s
  rw [h, decode_encode] at hs
  exact (Except.ok.inj hs).symm

/-! ## The standard library -/

/-- A character is written as the standard library writes it. -/
theorem encodeChar_eq (c : Char) : encodeChar c = String.utf8EncodeChar c := by
  have hvalid : c.toNat < 0xD800 ∨ 0xDFFF < c.toNat ∧ c.toNat < 0x110000 := c.valid
  have hval : c.val.toNat = c.toNat := rfl
  have htail (n : ℕ) : 0x80 + n % 0x40 = n % 64 + 128 := Nat.add_comm ..
  simp only [String.utf8EncodeChar, hval]
  split_ifs with h₁ h₂ h₃
  · rw [encodeChar_one (by omega)]
  · have hlead : 0xC0 + c.toNat / 0x40 = c.toNat / 64 % 32 + 192 := by omega
    rw [encodeChar_two (by omega) (by omega), hlead, htail]
  · have hlead : 0xE0 + c.toNat / 0x1000 = c.toNat / 4096 % 16 + 224 := by omega
    rw [encodeChar_three (by omega) (by omega), hlead, htail, htail]
  · have hlead : 0xF0 + c.toNat / 0x40000 = c.toNat / 262144 % 8 + 240 := by omega
    rw [encodeChar_four (by omega), hlead, htail, htail, htail]

theorem encode_eq (t : Text) : encode t = t.flatMap String.utf8EncodeChar := by
  rw [encode, funext encodeChar_eq]

/-! ## The byte order mark -/

theorem encode_byteOrderMarkChar : encode [byteOrderMarkChar] = byteOrderMark := by decide

/-- A text is written with a byte order mark at its beginning exactly if it begins with that
character. -/
theorem mark_prefix_encode_iff {t : Text} :
    byteOrderMark <+: encode t ↔ t.head? = some byteOrderMarkChar := by
  rcases t with _ | ⟨c, t⟩
  · simp [byteOrderMark]
  · rw [List.head?_cons, Option.some_inj]
    constructor
    · rintro ⟨rest, hrest⟩
      obtain ⟨lead, more, hc, hstep⟩ := step_encodeChar c (encode t)
      rw [encode_cons, hc] at hrest
      obtain ⟨rfl, hmore⟩ := List.cons.inj hrest
      -- The three bytes of the mark are read as one character.
      have hmark : step 0xEF (0xBB :: 0xBF :: rest) = .char byteOrderMarkChar 3 :=
        step_three rest (by decide) (by decide) (by decide) (by decide)
      have hread : step 0xEF (0xBB :: 0xBF :: rest) = .char c (more.length + 1) :=
        (congrArg (step 0xEF) hmore).trans hstep
      exact (Step.char.inj (hread.symm.trans hmark)).1
    · rintro rfl
      rw [← encode_byteOrderMarkChar, ← List.singleton_append, encode_append]
      exact List.prefix_append _ _

/-! ## The zero byte -/

theorem zero_ne_ofNat {n : ℕ} (hpos : 0 < n) (hlt : n < 256) : (0 : UInt8) ≠ UInt8.ofNat n := by
  intro h
  have hnat := congrArg UInt8.toNat h
  rw [toNat_ofNat_of_lt hlt] at hnat
  exact hpos.ne hnat

theorem eq_zero_of_mem_encodeChar {x : Char} (h : 0 ∈ encodeChar x) : x = Char.ofNat 0 := by
  have hvalid : x.toNat < 0xD800 ∨ 0xDFFF < x.toNat ∧ x.toNat < 0x110000 := x.valid
  rcases lt_or_ge x.toNat 0x80 with hone | hone
  · rw [encodeChar_one hone, List.mem_singleton] at h
    have hzero : x.toNat = 0 := by
      by_contra hne
      exact zero_ne_ofNat (by omega) (by omega) h
    rw [← hzero, Char.ofNat_toNat]
  -- In longer characters every byte has its highest bit set.
  · exfalso
    rcases lt_or_ge x.toNat 0x800 with htwo | htwo
    · rw [encodeChar_two hone htwo] at h
      simp only [List.mem_cons, List.not_mem_nil, or_false] at h
      rcases h with h | h <;> exact zero_ne_ofNat (by omega) (by omega) h
    rcases lt_or_ge x.toNat 0x10000 with hthree | hthree
    · rw [encodeChar_three htwo hthree] at h
      simp only [List.mem_cons, List.not_mem_nil, or_false] at h
      rcases h with h | h | h <;> exact zero_ne_ofNat (by omega) (by omega) h
    · rw [encodeChar_four hthree] at h
      simp only [List.mem_cons, List.not_mem_nil, or_false] at h
      rcases h with h | h | h | h <;> exact zero_ne_ofNat (by omega) (by omega) h

/-- Only the character with number zero is written with a zero byte. -/
theorem zero_not_mem_encode {t : Text} (h : Char.ofNat 0 ∉ t) : 0 ∉ encode t := by
  intro hzero
  obtain ⟨c, hc, hmem⟩ := List.mem_flatMap.1 hzero
  exact h (eq_zero_of_mem_encodeChar hmem ▸ hc)

end InsecureLinks.Utf8
