import Mathlib
import InsecureLinks.Proofs.Whitelist.Reading

/-!
# What the lines of a whitelist come to

Every line of a whitelist is passed over, is an entry, or is refused with a diagnostic.  Which of
these it is can be said of its text alone (`IsPassedOver`, `IsEntry`, `IsRefused`), and the whitelist
that is read has the entries and the diagnostics of its lines, in order and with their numbers
(`ofText_reads`).  Only a line number with too many digits keeps a line from coming to anything.
-/

namespace InsecureLinks

/-! ## Lines -/

namespace WhitelistEntry

/-- Whether a text is the number of a line, perhaps with zeros before it. -/
def IsNumeral (t : Text) : Prop := t ≠ [] ∧ ∀ c ∈ t, Text.isAsciiDigit c = true

/-- Whether a line is a path and a number with a `:` between them, the last one of the line. -/
def IsCut (line path number : Text) : Prop := line = path ++ ':' :: number ∧ ':' ∉ number

/-- Whether a line is an entry: a path, or a path with a line number. -/
inductive IsEntry (line : Text) : WhitelistEntry → Prop
  | wholeFile (hcolon : ':' ∉ line) (hpath : normalizePath line ≠ []) :
      IsEntry line ⟨normalizePath line, none, none⟩
  | oneLine {path number : Text} (hcut : IsCut line path number) (hnumber : IsNumeral number.strip)
      (hpos : 1 ≤ Text.value number.strip) (hpath : normalizePath path ≠ []) :
      IsEntry line ⟨normalizePath path, some (Text.value number.strip : ℕ), none⟩

/-- Why a line is no entry.  The number is looked at before the path. -/
inductive IsRefused (line : Text) : Fault → Prop
  | notANumber {path number : Text} (hcut : IsCut line path number)
      (hnumber : ¬IsNumeral number.strip) : IsRefused line (.notANumber line.strip)
  | belowOne {path number : Text} (hcut : IsCut line path number) (hnumber : IsNumeral number.strip)
      (hzero : Text.value number.strip = 0) : IsRefused line (.belowOne line.strip)
  | noPath (hcolon : ':' ∉ line) (hpath : normalizePath line = []) :
      IsRefused line (.noPath line.strip)
  | noPathBefore {path number : Text} (hcut : IsCut line path number)
      (hnumber : IsNumeral number.strip) (hpos : 1 ≤ Text.value number.strip)
      (hpath : normalizePath path = []) : IsRefused line (.noPath line.strip)

variable {line path number : Text}

theorem exists_isCut (h : ':' ∈ line) : ∃ path number, IsCut line path number :=
  Text.exists_last_of_mem h

theorem isEntry_or_isRefused (line : Text) : (∃ e, IsEntry line e) ∨ ∃ f, IsRefused line f := by
  by_cases hcolon : ':' ∈ line
  · obtain ⟨path, number, hcut⟩ := exists_isCut hcolon
    by_cases hnumber : IsNumeral number.strip
    · by_cases hzero : Text.value number.strip = 0
      · exact .inr ⟨_, .belowOne hcut hnumber hzero⟩
      · have hpos : 1 ≤ Text.value number.strip := Nat.one_le_iff_ne_zero.2 hzero
        by_cases hpath : normalizePath path = []
        · exact .inr ⟨_, .noPathBefore hcut hnumber hpos hpath⟩
        · exact .inl ⟨_, .oneLine hcut hnumber hpos hpath⟩
    · exact .inr ⟨_, .notANumber hcut hnumber⟩
  · by_cases hpath : normalizePath line = []
    · exact .inr ⟨_, .noPath hcolon hpath⟩
    · exact .inl ⟨_, .wholeFile hcolon hpath⟩

/-! ## Reading a line -/

theorem normalizePath_of_strip_eq {p q : Text} (h : p.strip = q.strip) :
    normalizePath p = normalizePath q := by
  unfold normalizePath
  rw [h]

theorem ofPath_of_strip_eq {p q : Text} (h : p.strip = q.strip) (n : Option ℤ) :
    ofPath line p n = ofPath line q n := by
  unfold ofPath
  rw [normalizePath_of_strip_eq h]

theorem ofPath_eq (path : Text) (n : Option ℤ) : ofPath line path n =
    if normalizePath path = [] then .error (.noPath line) else .ok ⟨normalizePath path, n, none⟩ := by
  unfold ofPath
  simp only [List.isEmpty_iff]

theorem readLineNumber_of_strip_eq {m n : Text} (h : m.strip = n.strip) :
    readLineNumber line m = readLineNumber line n := by
  unfold readLineNumber
  rw [h]

theorem isNumeral_iff (t : Text) :
    (t.isEmpty || !t.all Text.isAsciiDigit) = false ↔ IsNumeral t := by
  simp [IsNumeral]

theorem readLineNumber_of_isNumeral (h : IsNumeral number.strip)
    (hshort : number.strip.length ≤ Literal.maxDigits) :
    readLineNumber line number = if Text.value number.strip = 0 then .error (.belowOne line)
      else .ok (Text.value number.strip : ℕ) := by
  have hdigits := (isNumeral_iff _).2 h
  unfold readLineNumber
  dsimp only
  rw [hdigits, if_neg Bool.false_ne_true, if_neg (not_lt.2 hshort)]
  by_cases hzero : Text.value number.strip = 0
  · rw [if_pos hzero, if_pos (by omega)]
  · rw [if_neg hzero, if_neg (by omega)]

theorem readLineNumber_of_not_isNumeral (h : ¬IsNumeral number.strip) :
    readLineNumber line number = .error (.notANumber line) := by
  have hdigits : (number.strip.isEmpty || !number.strip.all Text.isAsciiDigit) = true := by
    rw [← isNumeral_iff, Bool.not_eq_false] at h
    exact h
  unfold readLineNumber
  dsimp only
  rw [hdigits, if_pos rfl]

theorem parse_strip (line : Text) : parse line.strip = parse line := by
  unfold parse
  rw [Text.strip_strip]

theorem parse_of_noColon (h : ':' ∉ line) : parse line = ofPath line.strip line none := by
  have hnone : Text.cutLast? ':' line.strip = none :=
    Text.cutLast?_of_not_mem fun hmem => h (line.strip_subset hmem)
  unfold parse
  dsimp only
  rw [hnone]
  exact ofPath_of_strip_eq line.strip_strip none

theorem IsCut.cutLast? (h : IsCut line path number) :
    Text.cutLast? ':' line.strip = some (path.stripLeft, number.stripRight) := by
  obtain ⟨rfl, hcolon⟩ := h
  rw [Text.strip_append_cons (by decide), Text.cutLast?_append]
  intro hmem
  obtain ⟨w, hw, -⟩ := Text.exists_blanks number
  exact hcolon (hw ▸ List.mem_append_left w hmem)

theorem IsCut.parse_eq (h : IsCut line path number) :
    parse line = (readLineNumber line.strip number).bind
      fun n => ofPath line.strip path (some n) := by
  unfold parse
  dsimp only
  rw [h.cutLast?]
  dsimp only
  rw [readLineNumber_of_strip_eq (Text.strip_stripRight number)]
  simp only [ofPath_of_strip_eq (Text.strip_stripLeft path)]
  rfl

theorem IsCut.length_le (h : IsCut line path number) (hnumber : IsNumeral number.strip)
    (hshort : ¬HasLongNumber line) : number.strip.length ≤ Literal.maxDigits := by
  by_contra hlong
  refine hshort ⟨_, _, h.cutLast?, ?_, ?_⟩
  · rw [Text.strip_stripRight]
    exact List.all_eq_true.2 hnumber.2
  · rw [Text.strip_stripRight]
    omega

theorem not_hasLongNumber_of_noColon (h : ':' ∉ line) : ¬HasLongNumber line := by
  rintro ⟨path, number, hcut, -⟩
  refine h (line.strip_subset ?_)
  rw [Text.eq_of_cutLast? hcut]
  exact List.mem_append_right _ List.mem_cons_self

theorem IsCut.not_hasLongNumber (h : IsCut line path number)
    (hshort : number.strip.length ≤ Literal.maxDigits) : ¬HasLongNumber line := by
  rintro ⟨_, _, hcut, -, hlong⟩
  rw [h.cutLast?] at hcut
  cases hcut
  rw [Text.strip_stripRight] at hlong
  omega

theorem HasLongNumber.lt_length (h : HasLongNumber line) : Literal.maxDigits < line.length := by
  obtain ⟨path, number, hcut, -, hlong⟩ := h
  have hline := congrArg List.length (Text.eq_of_cutLast? hcut)
  rw [List.length_append, List.length_cons] at hline
  have hnumber := number.length_strip_le
  have hstrip := line.length_strip_le
  omega

/-- A line that is an entry is read as this entry, unless its number is too long. -/
theorem IsEntry.parse_eq {e : WhitelistEntry} (h : IsEntry line e) (hshort : ¬HasLongNumber line) :
    parse line = .ok e := by
  cases h with
  | wholeFile hcolon hpath => rw [parse_of_noColon hcolon, ofPath_eq, if_neg hpath]
  | oneLine hcut hnumber hpos hpath =>
    rw [hcut.parse_eq, readLineNumber_of_isNumeral hnumber (hcut.length_le hnumber hshort),
      if_neg (by omega)]
    dsimp only [Except.bind]
    rw [ofPath_eq, if_neg hpath]

theorem IsRefused.parse_eq {f : Fault} (h : IsRefused line f) (hshort : ¬HasLongNumber line) :
    parse line = .error f := by
  cases h with
  | notANumber hcut hnumber =>
    rw [hcut.parse_eq, readLineNumber_of_not_isNumeral hnumber]
    rfl
  | belowOne hcut hnumber hzero =>
    rw [hcut.parse_eq, readLineNumber_of_isNumeral hnumber (hcut.length_le hnumber hshort),
      if_pos hzero]
    rfl
  | noPath hcolon hpath => rw [parse_of_noColon hcolon, ofPath_eq, if_pos hpath]
  | noPathBefore hcut hnumber hpos hpath =>
    rw [hcut.parse_eq, readLineNumber_of_isNumeral hnumber (hcut.length_le hnumber hshort),
      if_neg (by omega)]
    dsimp only [Except.bind]
    rw [ofPath_eq, if_pos hpath]

end WhitelistEntry

/-! ## Whitelists -/

namespace Whitelist

open WhitelistEntry (IsEntry IsRefused HasLongNumber)

/-- Whether there is nothing on a line but blanks, or a comment. -/
def IsPassedOver (line : Text) : Prop := line.strip = [] ∨ line.strip.head? = some '#'

theorem isPassedOver_iff (line : Text) : isPassedOver line.strip = true ↔ IsPassedOver line := by
  rw [isPassedOver, Bool.or_eq_true, List.isEmpty_iff, decide_eq_true_iff]
  rfl

/-- What a line comes to. -/
inductive LineOutcome
  | nothing
  | entry (e : WhitelistEntry)
  | fault (f : WhitelistEntry.Fault)

namespace LineOutcome

/-- The entry of a line. -/
def entry? : LineOutcome → Option WhitelistEntry
  | .entry e => some e
  | _ => none

/-- The diagnostic of the line with number `n`. -/
def diagnostic? (source : Text) (n : ℕ) : LineOutcome → Option Diagnostic
  | .fault f => some (.malformedEntry source f.message n)
  | _ => none

end LineOutcome

/-- Whether a line comes to an outcome. -/
def Reads (line : Text) : LineOutcome → Prop
  | .nothing => IsPassedOver line
  | .entry e => ¬IsPassedOver line ∧ IsEntry line e
  | .fault f => ¬IsPassedOver line ∧ IsRefused line f ∧ ∀ e, ¬IsEntry line e

theorem addLine_of_isPassedOver {line : Text} (h : IsPassedOver line) (w : Whitelist) (n : ℕ) :
    addLine w n line = .ok w := by
  unfold addLine
  dsimp only
  rw [if_pos ((isPassedOver_iff line).2 h)]

theorem addLine_of_parse {line : Text} (h : ¬IsPassedOver line) (w : Whitelist) (n : ℕ) :
    addLine w n line =
      match WhitelistEntry.parse line with
      | .ok e => .ok (w.withEntries [e])
      | .error (.tooManyDigits count) => .error (.tooManyDigits count)
      | .error f => .ok ⟨w.entries, w.source,
          w.diagnostics ++ [.malformedEntry w.source f.message n]⟩ := by
  unfold addLine
  dsimp only
  rw [if_neg fun hpassed => h ((isPassedOver_iff line).1 hpassed), WhitelistEntry.parse_strip]
  rfl

/-- A line adds its entry or its diagnostic to a whitelist, or nothing. -/
theorem addLine_reads (w : Whitelist) (n : ℕ) {line : Text}
    (hshort : ¬IsPassedOver line → ¬HasLongNumber line) :
    ∃ o, Reads line o ∧ addLine w n line =
      .ok ⟨w.entries ++ o.entry?.toList, w.source,
        w.diagnostics ++ (o.diagnostic? w.source n).toList⟩ := by
  by_cases hpassed : IsPassedOver line
  · rw [addLine_of_isPassedOver hpassed]
    refine ⟨.nothing, hpassed, ?_⟩
    simp [LineOutcome.entry?, LineOutcome.diagnostic?]
  · rw [addLine_of_parse hpassed]
    have hshort := hshort hpassed
    rcases WhitelistEntry.isEntry_or_isRefused line with ⟨e, he⟩ | ⟨f, hf⟩
    · rw [he.parse_eq hshort]
      refine ⟨.entry e, ⟨hpassed, he⟩, ?_⟩
      simp [withEntries, LineOutcome.entry?, LineOutcome.diagnostic?]
    · have hparse := hf.parse_eq hshort
      have hnone : ∀ e, ¬IsEntry line e := by
        intro e he
        rw [he.parse_eq hshort] at hparse
        cases hparse
      refine ⟨.fault f, ⟨hpassed, hf, hnone⟩, ?_⟩
      rw [hparse]
      cases hf with
      | notANumber | belowOne | noPath | noPathBefore =>
        simp [LineOutcome.entry?, LineOutcome.diagnostic?]

theorem addLines_append (w : Whitelist) (n : ℕ) (ls ls' : List Text) :
    addLines w n (ls ++ ls') = (addLines w n ls).bind fun w' => addLines w' (n + ls.length) ls' := by
  induction ls generalizing w n with
  | nil => rfl
  | cons l ls ih =>
    rw [List.cons_append, addLines, addLines]
    rcases addLine w n l with f | w₁
    · rfl
    · change addLines w₁ (n + 1) (ls ++ ls') = (addLines w₁ (n + 1) ls).bind _
      rw [ih, List.length_cons]
      congr 2
      funext w'
      congr 1
      omega

theorem addLines_of_isPassedOver {lines : List Text} (h : ∀ line ∈ lines, IsPassedOver line)
    (w : Whitelist) (n : ℕ) : addLines w n lines = .ok w := by
  induction lines generalizing n with
  | nil => rfl
  | cons line lines ih =>
    obtain ⟨hline, hlines⟩ := List.forall_mem_cons.1 h
    rw [addLines, addLine_of_isPassedOver hline]
    exact ih hlines (n + 1)

theorem addLines_reads {lines : List Text}
    (hshort : ∀ line ∈ lines, ¬IsPassedOver line → ¬HasLongNumber line) (w : Whitelist) (n : ℕ) :
    ∃ os, List.Forall₂ Reads lines os ∧ addLines w n lines =
      .ok ⟨w.entries ++ os.filterMap LineOutcome.entry?, w.source,
        w.diagnostics ++ (os.zipIdx n).filterMap fun (o, k) => o.diagnostic? w.source k⟩ := by
  induction lines generalizing w n with
  | nil =>
    refine ⟨[], .nil, ?_⟩
    simp [addLines]
  | cons line lines ih =>
    obtain ⟨hline, hlines⟩ := List.forall_mem_cons.1 hshort
    obtain ⟨o, ho, hadd⟩ := addLine_reads w n hline
    obtain ⟨os, hos, hrest⟩ := ih hlines ⟨w.entries ++ o.entry?.toList, w.source,
      w.diagnostics ++ (o.diagnostic? w.source n).toList⟩ (n + 1)
    refine ⟨o :: os, .cons ho hos, ?_⟩
    rw [addLines, hadd]
    refine hrest.trans ?_
    rw [List.zipIdx_cons, List.append_assoc, List.append_assoc]
    rcases o with _ | e | f
    · rfl
    · rfl
    · rfl

/-- If no line that is not passed over has a number with too many digits, a whitelist is read: every
line comes to nothing, an entry or a diagnostic, and the whitelist has these in the order of the
lines, the diagnostics with the numbers of their lines. -/
theorem ofText_reads (source : Text) {content : Text}
    (hshort : ∀ line ∈ Text.wideLines content, ¬IsPassedOver line → ¬HasLongNumber line) :
    ∃ os, List.Forall₂ Reads (Text.wideLines content) os ∧ ofText source content =
      .ok ⟨os.filterMap LineOutcome.entry?, source,
        (os.zipIdx 1).filterMap fun (o, n) => o.diagnostic? source n⟩ :=
  addLines_reads hshort ⟨[], source, []⟩ 1

/-- Lines of every kind, with breaks of three kinds between them. -/
def mixedText : Text := " # c\n./a//b\\c: 07 \n\n:5\nd\r\nx:y\x0be:0".toList

theorem ofText_reads_mixedText :
    (∀ line ∈ Text.wideLines mixedText, ¬IsPassedOver line → ¬HasLongNumber line) ∧
    ∃ os, List.Forall₂ Reads (Text.wideLines mixedText) os ∧
      ofText "w".toList mixedText = .ok ⟨os.filterMap LineOutcome.entry?, "w".toList,
        (os.zipIdx 1).filterMap fun (o, n) => o.diagnostic? "w".toList n⟩ ∧
      os.filterMap LineOutcome.entry? =
        [⟨"a/b/c".toList, some 7, none⟩, ⟨"d".toList, none, none⟩] := by
  have hshort : ∀ line ∈ Text.wideLines mixedText, ¬IsPassedOver line → ¬HasLongNumber line := by
    have hlengths : ∀ line ∈ Text.wideLines mixedText, line.length ≤ Literal.maxDigits := by decide
    intro line hline _ hlong
    exact absurd hlong.lt_length (not_lt.2 (hlengths line hline))
  obtain ⟨os, hos, hread⟩ := ofText_reads "w".toList hshort
  have hentries : (ofText "w".toList mixedText).map Whitelist.entries =
      .ok [⟨"a/b/c".toList, some 7, none⟩, ⟨"d".toList, none, none⟩] := rfl
  refine ⟨hshort, os, hos, hread, ?_⟩
  rw [hread] at hentries
  exact Except.ok.inj hentries

end Whitelist

end InsecureLinks
