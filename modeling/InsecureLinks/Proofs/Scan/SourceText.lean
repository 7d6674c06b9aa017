import Mathlib
import InsecureLinks.Proofs.Outcome
import InsecureLinks.Proofs.Text.Utf8
import InsecureLinks.Scan.SourceText

/-!
# Which files are texts

A file is read as a text exactly if it is no larger than the limit, has no zero byte near its start and
holds what the standard library writes the text as, with or without a byte order mark before it
(`IsTextOf`).  Every other file is skipped: as unreadable if it is too large, as binary if not
(`readWithin_outcome`).

One byte more than the limit is asked for, as one row of bytes, so there is a greatest limit, and there
has to be room for the row.  Beyond the greatest limit a file that could be read as a text is not read at
all (`limit_of_greatest`).
-/

namespace InsecureLinks.SourceText

variable {memory : ℕ} {tree : FileTree} {here : Place} {maxBytes : ℤ} {p : Path} {b : Utf8.Bytes}
  {t : Text}

/-! ## Bytes -/

/-- Whether bytes are what a text is written as in UTF-8, with or without a byte order mark before
it. -/
def HoldsText (b : Utf8.Bytes) (t : Text) : Prop :=
  b = [0xEF, 0xBB, 0xBF] ++ t.flatMap String.utf8EncodeChar ∨
    ¬[0xEF, 0xBB, 0xBF] <+: b ∧ b = t.flatMap String.utf8EncodeChar

theorem holdsText_iff : HoldsText b t ↔ Utf8.dropByteOrderMark b = Utf8.encode t := by
  have hmark : ([0xEF, 0xBB, 0xBF] : Utf8.Bytes) = Utf8.byteOrderMark := rfl
  rw [HoldsText, hmark, ← Utf8.encode_eq, Utf8.dropByteOrderMark]
  by_cases hprefix : Utf8.byteOrderMark <+: b
  · rw [if_pos (List.isPrefixOf_iff_prefix.2 hprefix)]
    obtain ⟨rest, rfl⟩ := hprefix
    rw [List.drop_left, List.append_cancel_left_eq]
    exact or_iff_left fun h => h.1 (List.prefix_append _ _)
  · rw [if_neg (mt List.isPrefixOf_iff_prefix.1 hprefix)]
    refine (or_iff_right ?_).trans (and_iff_right hprefix)
    rintro rfl
    exact hprefix (List.prefix_append _ _)

/-- Whether bytes are those of a file that is read as a text. -/
structure IsTextOf (maxBytes : ℤ) (b : Utf8.Bytes) (t : Text) : Prop where
  size : (b.length : ℤ) ≤ maxBytes
  zero : 0 ∉ b.take 8000
  holds : HoldsText b t

theorem ofBytes_eq_ok_iff : ofBytes maxBytes b = .ok t ↔ IsTextOf maxBytes b t := by
  rw [ofBytes, sniffBytes]
  split_ifs with hsize hzero
  · exact iff_of_false (fun h => nomatch h) fun h => absurd h.size (not_le.2 hsize)
  · exact iff_of_false (fun h => nomatch h) fun h => h.zero (List.contains_iff_mem.1 hzero)
  · have htext : Utf8.decode (Utf8.dropByteOrderMark b) = .ok t ↔ HoldsText b t :=
      Utf8.decode_eq_ok_iff.trans holdsText_iff.symm
    constructor
    · intro h
      split at h
      · next u hu =>
        cases h
        exact ⟨not_lt.1 hsize, mt List.contains_iff_mem.2 hzero, htext.1 hu⟩
      · cases h
    · intro h
      rw [htext.2 h.holds]

/-- Bytes that are not read are too many, or binary. -/
theorem isBinary_of_ofBytes {s : Skipped} (h : ofBytes maxBytes b = .error s) :
    (maxBytes < b.length ∧ s.isBinary = false) ∨ ((b.length : ℤ) ≤ maxBytes ∧ s.isBinary = true) := by
  rw [ofBytes] at h
  split_ifs at h with hsize hzero
  · cases h
    exact .inl ⟨hsize, rfl⟩
  · cases h
    exact .inr ⟨not_lt.1 hsize, rfl⟩
  · split at h
    · cases h
    · cases h
      exact .inr ⟨not_lt.1 hsize, rfl⟩

theorem exists_skipped_of_ofBytes (h : ∀ t, ¬IsTextOf maxBytes b t) :
    ∃ s, ofBytes maxBytes b = .error s := by
  rcases hread : ofBytes maxBytes b with s | t
  · exact ⟨s, rfl⟩
  · exact absurd (ofBytes_eq_ok_iff.1 hread) (h t)

theorem ofBytes_unreadable_iff :
    (∃ s, ofBytes maxBytes b = .error s ∧ s.isBinary = false) ↔ maxBytes < b.length := by
  constructor
  · rintro ⟨s, hs, hbinary⟩
    rcases isBinary_of_ofBytes hs with ⟨hsize, -⟩ | ⟨-, htrue⟩
    · exact hsize
    · cases hbinary.symm.trans htrue
  · intro hsize
    obtain ⟨s, hs⟩ := exists_skipped_of_ofBytes fun t ht => absurd ht.size (not_le.2 hsize)
    refine ⟨s, hs, (isBinary_of_ofBytes hs).elim And.right fun h => ?_⟩
    exact absurd h.1 (not_le.2 hsize)

theorem ofBytes_binary_iff :
    (∃ s, ofBytes maxBytes b = .error s ∧ s.isBinary = true) ↔
      (b.length : ℤ) ≤ maxBytes ∧ ∀ t, ¬IsTextOf maxBytes b t := by
  constructor
  · rintro ⟨s, hs, hbinary⟩
    rcases isBinary_of_ofBytes hs with ⟨-, hfalse⟩ | ⟨hsize, -⟩
    · cases hbinary.symm.trans hfalse
    · refine ⟨hsize, fun t ht => ?_⟩
      cases hs.symm.trans (ofBytes_eq_ok_iff.2 ht)
  · rintro ⟨hsize, hnone⟩
    obtain ⟨s, hs⟩ := exists_skipped_of_ofBytes hnone
    refine ⟨s, hs, (isBinary_of_ofBytes hs).elim (fun h => ?_) And.right⟩
    exact absurd h.1 (not_lt.2 hsize)

/-- What a text is written as is that text's, unless the text has a zero or begins with a mark. -/
theorem isTextOf_encode (hsize : ((Utf8.encode t).length : ℤ) ≤ maxBytes) (hzero : Char.ofNat 0 ∉ t)
    (hhead : t.head? ≠ some (Char.ofNat 0xFEFF)) : IsTextOf maxBytes (Utf8.encode t) t where
  size := hsize
  zero hmem := Utf8.zero_not_mem_encode hzero (List.mem_of_mem_take hmem)
  holds := .inr ⟨fun hprefix => hhead (Utf8.mark_prefix_encode_iff.1 hprefix), Utf8.encode_eq t⟩

/-! ## Files -/

theorem canOpen_of_read (hread : tree.read here p = .ok b) : canOpen tree here p = true := by
  rw [canOpen, hread]
  rfl

theorem readWithin_of_limit (hread : tree.read here p = .ok b) (hlimit : limitFault? maxBytes = none)
    (hroom : maxBytes < memory) :
    readWithin memory tree here maxBytes p = (ofBytes maxBytes b).mapError .skipped := by
  rw [readWithin, hlimit, canOpen_of_read hread, read, hread]
  exact if_neg (by omega)

theorem readWithin_of_noMemory (hread : tree.read here p = .ok b)
    (hlimit : limitFault? maxBytes = none) (hroom : (memory : ℤ) ≤ maxBytes) :
    readWithin memory tree here maxBytes p = .error .noMemory := by
  rw [readWithin, hlimit, canOpen_of_read hread]
  exact if_pos (by omega)

theorem readWithin_of_limitFault {f : LimitFault} (hread : tree.read here p = .ok b)
    (hlimit : limitFault? maxBytes = some f) :
    readWithin memory tree here maxBytes p = .error (.limit f) := by
  rw [readWithin, hlimit, canOpen_of_read hread]

/-- Whether a size limit can be asked for: as a number, and as one row of bytes. -/
theorem limitFault?_cases (hmax : 0 ≤ maxBytes) :
    (maxBytes < 2 ^ 63 - 34 ∧ limitFault? maxBytes = none) ∨
    (2 ^ 63 - 34 ≤ maxBytes ∧ maxBytes < 2 ^ 63 - 1 ∧ limitFault? maxBytes = some .tooLong) ∨
    (2 ^ 63 - 1 ≤ maxBytes ∧ limitFault? maxBytes = some .tooLarge) := by
  rw [limitFault?, maxRow, if_neg (by omega)]
  split_ifs with hlarge hlong
  · exact .inr (.inr ⟨by omega, rfl⟩)
  · exact .inr (.inl ⟨by omega, by omega, rfl⟩)
  · exact .inl ⟨by omega, rfl⟩

/-- A file that can be opened is read as a text exactly if it is one, and is skipped otherwise: as
unreadable exactly if it is larger than the limit, as binary in all other cases.  Only if there is no
room for a byte more than the limit, or no row of bytes is that long, nothing is read. -/
theorem readWithin_outcome (hread : tree.read here p = .ok b) (hmax : 0 ≤ maxBytes) :
    (maxBytes < 2 ^ 63 - 34 → maxBytes < memory →
      (∀ t, readWithin memory tree here maxBytes p = .ok t ↔ IsTextOf maxBytes b t) ∧
      ((∃ s, readWithin memory tree here maxBytes p = .error (.skipped s) ∧ s.isBinary = false) ↔
        maxBytes < b.length) ∧
      ((∃ s, readWithin memory tree here maxBytes p = .error (.skipped s) ∧ s.isBinary = true) ↔
        (b.length : ℤ) ≤ maxBytes ∧ ∀ t, ¬IsTextOf maxBytes b t) ∧
      ∀ t, b = t.flatMap String.utf8EncodeChar → (b.length : ℤ) ≤ maxBytes →
        Char.ofNat 0 ∉ t → t.head? ≠ some (Char.ofNat 0xFEFF) →
        readWithin memory tree here maxBytes p = .ok t) ∧
    (maxBytes < 2 ^ 63 - 34 → memory ≤ maxBytes →
      readWithin memory tree here maxBytes p = .error .noMemory) ∧
    (2 ^ 63 - 34 ≤ maxBytes → maxBytes < 2 ^ 63 - 1 →
      readWithin memory tree here maxBytes p = .error (.limit .tooLong)) ∧
    (2 ^ 63 - 1 ≤ maxBytes → readWithin memory tree here maxBytes p = .error (.limit .tooLarge)) := by
  rcases limitFault?_cases hmax with ⟨hlow, hlimit⟩ | ⟨hlong, hfits, hlimit⟩ | ⟨hlarge, hlimit⟩
  · refine ⟨fun _ hroom => ?_, fun _ hroom => readWithin_of_noMemory hread hlimit hroom,
      fun h => absurd hlow (not_lt.2 h), fun h => by omega⟩
    have hok : ∀ t, readWithin memory tree here maxBytes p = .ok t ↔ IsTextOf maxBytes b t := by
      intro t
      rw [readWithin_of_limit hread hlimit hroom, mapError_eq_ok, ofBytes_eq_ok_iff]
    have herror : ∀ s, readWithin memory tree here maxBytes p = .error (.skipped s) ↔
        ofBytes maxBytes b = .error s := by
      intro s
      rw [readWithin_of_limit hread hlimit hroom, mapError_eq_error]
      simp
    simp only [herror]
    refine ⟨hok, ofBytes_unreadable_iff, ofBytes_binary_iff, fun t hb hsize hzero hhead => ?_⟩
    rw [← Utf8.encode_eq] at hb
    subst hb
    exact (hok t).2 (isTextOf_encode hsize hzero hhead)
  · exact ⟨fun h => absurd hlong (not_le.2 h), fun h => absurd hlong (not_le.2 h),
      fun _ _ => readWithin_of_limitFault hread hlimit, fun h => absurd hfits (not_lt.2 h)⟩
  · exact ⟨fun h => by omega, fun h => by omega, fun _ h => absurd hlarge (not_le.2 h),
      fun _ => readWithin_of_limitFault hread hlimit⟩

/-! ## A small file -/

/-- A file `f` with a byte order mark and two characters. -/
def markedFile : FileTree :=
  ⟨[(["f".toList], .file (.bytes [0xEF, 0xBB, 0xBF, 0xC3, 0xA9, 0x0A]))], [], []⟩

theorem read_markedFile :
    markedFile.read [] (Path.ofText "f".toList) = .ok [0xEF, 0xBB, 0xBF, 0xC3, 0xA9, 0x0A] := by
  cbv

/-- The bytes of the file are those of its two characters after a byte order mark. -/
theorem isTextOf_markedFile (hmax : 6 ≤ maxBytes) :
    IsTextOf maxBytes [0xEF, 0xBB, 0xBF, 0xC3, 0xA9, 0x0A] "é\n".toList where
  size := hmax
  zero := by decide
  holds := .inl (by decide)

/-- A file that is just as large as the limit is read, one that is a byte larger is not, and with
room for no more bytes than the limit nothing is. -/
theorem readWithin_outcome_markedFile :
    readWithin 7 markedFile [] 6 (Path.ofText "f".toList) = .ok "é\n".toList ∧
      (∃ s, readWithin 7 markedFile [] 5 (Path.ofText "f".toList) = .error (.skipped s) ∧
        s.isBinary = false) ∧
      readWithin 6 markedFile [] 6 (Path.ofText "f".toList) = .error .noMemory := by
  refine ⟨?_, ?_, ?_⟩
  · exact ((readWithin_outcome read_markedFile (by decide)).1 (by decide) (by decide)).1 _ |>.2
      (isTextOf_markedFile le_rfl)
  · exact ((readWithin_outcome read_markedFile (by decide)).1 (by decide) (by decide)).2.1.2
      (by decide)
  · exact (readWithin_outcome read_markedFile (by decide)).2.1 (by decide) (by decide)

/-- With the greatest limit that fits into a machine word a text is not read, although it is much
smaller, whatever room there is. -/
theorem limit_of_greatest :
    markedFile.read [] (Path.ofText "f".toList) = .ok [0xEF, 0xBB, 0xBF, 0xC3, 0xA9, 0x0A] ∧
      IsTextOf (2 ^ 63 - 1) [0xEF, 0xBB, 0xBF, 0xC3, 0xA9, 0x0A] "é\n".toList ∧
      readWithin (2 ^ 64) markedFile [] (2 ^ 63 - 1) (Path.ofText "f".toList) =
        .error (.limit .tooLarge) :=
  ⟨read_markedFile, isTextOf_markedFile (by decide),
    readWithin_of_limitFault read_markedFile (by decide)⟩

end InsecureLinks.SourceText
