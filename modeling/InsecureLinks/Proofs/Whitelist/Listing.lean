import Mathlib
import InsecureLinks.Proofs.Whitelist.Spelling

/-!
# Entries written one on a line

Entries that are written one on a line, with blank lines and comments between them, are read as they
were, in order and without a diagnostic, however each of them is spelled and whatever ends the lines
(`ofText_listing`).  A line that ends in a carriage return makes one break with a line feed after
it, so that the empty line between the two is no line of the text; it would be passed over.
-/

namespace InsecureLinks.Whitelist

/-! ## Writing -/

/-- Whether a line has an entry, or is passed over and has none. -/
inductive IsRow : Option WhitelistEntry → Text → Prop
  | nothing {line : Text} (h : IsPassedOver line) (hbreak : ∀ c ∈ line, Text.isWideBreak c = false) :
      IsRow none line
  | entry {e : WhitelistEntry} {line : Text} (h : e.Spells line) : IsRow (some e) line

/-- Whether a text is a way to write entries one on a line. -/
inductive IsListing : List WhitelistEntry → Text → Prop
  | last {o : Option WhitelistEntry} {line : Text} (h : IsRow o line) : IsListing o.toList line
  | line {o : Option WhitelistEntry} {line b t : Text} {es : List WhitelistEntry} (h : IsRow o line)
      (hb : Text.IsBreak b) (ht : IsListing es t) : IsListing (o.toList ++ es) (line ++ (b ++ t))

/-! ## Reading a line -/

theorem isPassedOver_nil : IsPassedOver [] := .inl rfl

theorem addLine_of_spells {e : WhitelistEntry} (he : e.IsPlain) {line : Text} (h : e.Spells line)
    (w : Whitelist) (n : ℕ) : addLine w n line = .ok (w.withEntries [e]) := by
  obtain ⟨hentry, hshort⟩ := h.isEntry he
  have hpassed : ¬IsPassedOver line := by
    obtain ⟨c, hhead, hc⟩ := h.head_strip he
    rintro (hnil | hcomment)
    · rw [hnil] at hhead
      cases hhead
    · exact hc (Option.some.inj (hhead.symm.trans hcomment))
  rw [addLine_of_parse hpassed, hentry.parse_eq hshort]

namespace IsRow

variable {o : Option WhitelistEntry} {line : Text} (h : IsRow o line) (hplain : ∀ e ∈ o, e.IsPlain)
include h hplain

theorem not_isWideBreak : ∀ c ∈ line, Text.isWideBreak c = false := by
  cases h with
  | nothing h hbreak => exact hbreak
  | entry h => exact h.not_isWideBreak (hplain _ rfl)

theorem addLine_eq (w : Whitelist) (n : ℕ) : addLine w n line = .ok (w.withEntries o.toList) := by
  cases h with
  | nothing h hbreak =>
    rw [addLine_of_isPassedOver h]
    simp [withEntries]
  | entry h => exact addLine_of_spells (hplain _ rfl) h w n

end IsRow

theorem addLines_dropEmptyLast (w : Whitelist) (n : ℕ) (ls : List Text) :
    addLines w n (Text.dropEmptyLast ls) = addLines w n ls := by
  rcases List.eq_nil_or_concat' ls with rfl | ⟨ls, l, rfl⟩
  · rfl
  · rw [Text.dropEmptyLast_concat]
    split_ifs with hl
    · obtain rfl := List.isEmpty_iff.1 hl
      rw [addLines_append, addLines_append]
      rfl
    · rfl

/-! ## Reading them all -/

/-- The lines of a listing add its entries.  The induction is on the listing, its first line first. -/
theorem IsListing.addLines_eq {es : List WhitelistEntry} {t : Text} (h : IsListing es t)
    (hplain : ∀ e ∈ es, e.IsPlain) (w : Whitelist) (n : ℕ) :
    addLines w n (Text.betweenWideBreaks t) = .ok (w.withEntries es) := by
  induction h generalizing w n with
  | @last o line h =>
    have hrow : ∀ e ∈ o, e.IsPlain := fun e he => hplain e (Option.mem_toList.2 he)
    rw [Text.betweenWideBreaks_of_no_break (h.not_isWideBreak hrow), addLines, h.addLine_eq hrow]
    rfl
  | @line o line b t es h hb ht ih =>
    have hrow : ∀ e ∈ o, e.IsPlain :=
      fun e he => hplain e (List.mem_append_left _ (Option.mem_toList.2 he))
    have hrest : ∀ w n, addLines w n (Text.betweenWideBreaks t) = .ok (w.withEntries es) :=
      ih fun e he => hplain e (List.mem_append_right _ he)
    obtain ⟨ls, hls, hcut⟩ := Text.betweenWideBreaks_line (h.not_isWideBreak hrow) hb t
    have hafter : ∀ w n, addLines w (n + 1) ls = .ok (w.withEntries es) := by
      intro w n
      rcases hcut with hcut | hcut
      · rw [← hcut, hrest]
      · have hnil : addLines w n ([] :: ls) = addLines w (n + 1) ls := by
          rw [addLines, addLine_of_isPassedOver isPassedOver_nil]
          rfl
        rw [← hnil, ← hcut, hrest]
    rw [hls, addLines, h.addLine_eq hrow]
    refine (hafter _ _).trans ?_
    simp [withEntries]

theorem isListing_text {es : List WhitelistEntry} (hplain : ∀ e ∈ es, e.IsPlain) :
    IsListing es (es.flatMap fun e => e.text ++ ['\n']) := by
  induction es with
  | nil => exact .last (.nothing isPassedOver_nil (by simp))
  | cons e es ih =>
    obtain ⟨he, hes⟩ := List.forall_mem_cons.1 hplain
    rw [List.flatMap_cons, List.append_assoc]
    exact .line (.entry (he.spells_text)) (.inr ⟨'\n', rfl, by decide⟩) (ih hes)

/-- However plain entries are written one on a line, with lines that are passed over among them, they
are what is read.  Their own texts, each with a line feed after it, are one way to write them. -/
theorem ofText_listing (source : Text) {es : List WhitelistEntry} (hplain : ∀ e ∈ es, e.IsPlain) :
    (∀ content, IsListing es content → ofText source content = .ok ⟨es, source, []⟩) ∧
      IsListing es (es.flatMap fun e => e.text ++ ['\n']) := by
  refine ⟨fun content h => ?_, isListing_text hplain⟩
  rw [ofText, Text.wideLines, addLines_dropEmptyLast, h.addLines_eq hplain]
  rfl

/-- An entry for a line of a file and one for a whole file. -/
def plainEntries : List WhitelistEntry :=
  [⟨"a/b".toList, some 7, none⟩, ⟨"d".toList, none, none⟩]

/-- A way to write them, with a comment and an empty line. -/
def spelledText : Text := " # c\n .\\a//b: 007\t\r\n\x0bd".toList

theorem isPlain_of_mem_plainEntries : ∀ e ∈ plainEntries, e.IsPlain := by
  have hseven : (Text.integer 7).length = 1 := congrArg _ (Text.natural_of_lt (by decide))
  simp only [plainEntries, List.forall_mem_cons]
  refine ⟨⟨⟨by decide, by decide, by decide, by decide, ?_, ?_⟩, ?_, ?_, rfl⟩,
    ⟨⟨by decide, by decide, by decide, by decide, ?_, ?_⟩, ?_, ?_, rfl⟩, by simp⟩
  · rintro c ⟨⟩
    decide
  · rintro c ⟨⟩
    decide
  · rintro ⟨⟩
  · rintro n ⟨⟩
    exact ⟨by decide, hseven ▸ by decide⟩
  · rintro c ⟨⟩
    decide
  · rintro c ⟨⟩
    decide
  · exact fun _ => by decide
  · rintro n ⟨⟩

theorem isListing_spelledText : IsListing plainEntries spelledText := by
  have hseven : Text.integer 7 = ['7'] := Text.natural_of_lt (by decide)
  have hpath : WhitelistEntry.SpellsPath "a/b".toList ".\\a//b".toList :=
    ⟨1, .cons (s := ['\\']) (by decide) (.cons (s := ['/', '/']) (by decide) (.one ['b']))⟩
  have hnumber : WhitelistEntry.IsPadded (List.replicate 2 '0' ++ Text.integer 7) " 007\t".toList :=
    ⟨[' '], ['\t'], by decide, by decide, by rw [hseven]; rfl⟩
  have hfirst := WhitelistEntry.Spells.oneLine hpath ⟨[' '], [], by decide, by decide, rfl⟩ hnumber
    (by rw [hseven]; decide)
  have hsecond := WhitelistEntry.Spells.wholeFile (WhitelistEntry.spellsPath_self "d".toList)
    (WhitelistEntry.isPadded_self _)
  have hempty : IsRow none [] := .nothing isPassedOver_nil (by simp)
  have hcomment : IsRow none " # c".toList := .nothing (.inr rfl) (by decide)
  exact .line hcomment (.inr ⟨'\n', rfl, rfl⟩)
    (.line (.entry hfirst) (.inl rfl) (.line hempty (.inr ⟨'\x0b', rfl, rfl⟩) (.last (.entry hsecond))))

theorem ofText_listing_spelledText : (∀ e ∈ plainEntries, e.IsPlain) ∧
    IsListing plainEntries spelledText ∧
    ofText "w".toList spelledText = .ok ⟨plainEntries, "w".toList, []⟩ := by
  have hplain := isPlain_of_mem_plainEntries
  exact ⟨hplain, isListing_spelledText,
    (ofText_listing "w".toList hplain).1 spelledText isListing_spelledText⟩

end InsecureLinks.Whitelist
