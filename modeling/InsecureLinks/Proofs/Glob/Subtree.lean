import Mathlib
import InsecureLinks.Proofs.Glob.Language
import InsecureLinks.Proofs.Glob.Pieces
import InsecureLinks.Proofs.Outcome
import InsecureLinks.Proofs.Text.Blank
import InsecureLinks.Proofs.Text.Field

/-!
# Patterns of whole folders

A pattern `q/**` excludes all that is in the folders matched by `q`, and a walk passes these over
by testing `q` alone.  The two patterns are read independently, so the cut has to be shown
harmless: `q` can be read whenever `q/**` can (`exists_parse_subtreePattern`), and whatever is in a
folder matched by `q` is matched by `q/**` (`matches_of_subtreePattern`).

The cut changes a pattern at one place only.  If `q` ends in `**`, that piece is read as `**/` in
the whole pattern; otherwise the pieces of `q` stand unchanged before `/` and `**`
(`cutPieces_append`).  The one condition is that `q` does not end in a blank: it would be stripped
off, so that `q` means another folder.
-/

namespace InsecureLinks.Glob

/-! ## Tokens of a longer pattern -/

/-- What follows a list of pieces that can be read is read on its own. -/
theorem tokens_append {ps : List Piece} (rest : List Piece) {ts : List Token}
    (h : tokens ps = .ok ts) : tokens (ps ++ rest) = (tokens rest).map (ts ++ ·) := by
  have map_cons (t : Token) (ts : List Token) :
      ((tokens rest).map (ts ++ ·)).map (t :: ·) = (tokens rest).map (t :: ts ++ ·) := by
    rcases tokens rest with e | us
    · rfl
    · rfl
  induction ps using tokens.induct _
    (fun members ps => ∀ ts, endlessTokens members ps = .ok ts →
      endlessTokens members (ps ++ rest) = (tokens rest).map (ts ++ ·)) generalizing ts with
  | case1 =>
    cases h
    rcases hrest : tokens rest with e | us
    · simp [hrest, Except.map]
    · simp [hrest, Except.map]
  | case2 ps ih | case3 ps ih | case4 ps ih | case5 ps ih | case6 c ps ih =>
    rw [tokens, map_eq_ok] at h
    obtain ⟨us, hus, rfl⟩ := h
    rw [List.cons_append, tokens, ih hus, map_cons]
  | case7 body ps hbare ih =>
    rw [tokens, if_pos hbare] at h
    rw [List.cons_append, tokens, if_pos hbare, ih _ h]
  | case8 body ps hbare ih =>
    rw [tokens, if_neg hbare, bind_eq_ok] at h
    obtain ⟨s, hs, h⟩ := h
    obtain ⟨us, hus, h⟩ := bind_eq_ok.1 h
    cases h
    rw [List.cons_append, tokens, if_neg hbare, hs, ih hus]
    rcases tokens rest with e | us
    · rfl
    · rfl
  | case9 members ts h => cases h
  | case10 members ps ih ts h | case11 members ps ih ts h | case12 members c ps ih ts h =>
    rw [endlessTokens] at h
    rw [List.cons_append, endlessTokens, ih _ h]
  | case13 members ps ih ts h | case14 members ps ih ts h =>
    rw [endlessTokens, map_eq_ok] at h
    obtain ⟨us, hus, rfl⟩ := h
    rw [List.cons_append, endlessTokens, ih hus, map_cons]
  | case15 members body ps ih ts h =>
    rw [endlessTokens, bind_eq_ok] at h
    obtain ⟨more, hmore, h⟩ := h
    obtain ⟨us, hus, h⟩ := bind_eq_ok.1 h
    cases h
    rw [List.cons_append, endlessTokens, hmore, ih hus]
    rcases tokens rest with e | us
    · rfl
    · rfl

/-- Pieces inside which no class can end. -/
def Piece.IsPlain : Piece → Prop
  | .literal _ => True
  | .anything => True
  | .folders => True
  | _ => False

@[simp] theorem Piece.isPlain_literal (c : Char) : (Piece.literal c).IsPlain := trivial

@[simp] theorem Piece.isPlain_anything : Piece.anything.IsPlain := trivial

@[simp] theorem Piece.isPlain_folders : Piece.folders.IsPlain := trivial

theorem endlessTokens_of_plain {rest : List Piece} (h : ∀ p ∈ rest, p.IsPlain)
    (members : List (Char × Char)) : endlessTokens members rest = .error .endlessClass := by
  induction rest generalizing members with
  | nil => rfl
  | cons p rest ih =>
    simp only [List.mem_cons, forall_eq_or_imp] at h
    obtain ⟨hp, hrest⟩ := h
    cases p with
    | literal c | anything | folders => rw [endlessTokens, ih hrest]
    | segment | character | set => exact hp.elim

/-- If pieces can be read with plain ones after them, they can be read without these. -/
theorem exists_tokens_of_append {ps rest : List Piece} (hrest : ∀ p ∈ rest, p.IsPlain)
    {ts : List Token} (h : tokens (ps ++ rest) = .ok ts) : ∃ us, tokens ps = .ok us := by
  induction ps using tokens.induct _
    (fun members ps => ∀ ts, endlessTokens members (ps ++ rest) = .ok ts →
      ∃ us, endlessTokens members ps = .ok us) generalizing ts with
  | case1 => exact ⟨[], rfl⟩
  | case2 ps ih | case3 ps ih | case4 ps ih | case5 ps ih | case6 c ps ih =>
    rw [List.cons_append, tokens, map_eq_ok] at h
    obtain ⟨vs, hvs, -⟩ := h
    obtain ⟨us, hus⟩ := ih hvs
    rw [tokens, hus]
    exact ⟨_, rfl⟩
  | case7 body ps hbare ih =>
    rw [List.cons_append, tokens, if_pos hbare] at h
    rw [tokens, if_pos hbare]
    exact ih _ h
  | case8 body ps hbare ih =>
    rw [List.cons_append, tokens, if_neg hbare, bind_eq_ok] at h
    obtain ⟨s, hs, h⟩ := h
    obtain ⟨vs, hvs, -⟩ := bind_eq_ok.1 h
    obtain ⟨us, hus⟩ := ih hvs
    rw [tokens, if_neg hbare, hs, hus]
    exact ⟨_, rfl⟩
  | case9 members ts h =>
    rw [List.nil_append, endlessTokens_of_plain hrest] at h
    cases h
  | case10 members ps ih ts h | case11 members ps ih ts h | case12 members c ps ih ts h =>
    rw [List.cons_append, endlessTokens] at h
    rw [endlessTokens]
    exact ih _ h
  | case13 members ps ih ts h | case14 members ps ih ts h =>
    rw [List.cons_append, endlessTokens, map_eq_ok] at h
    obtain ⟨vs, hvs, -⟩ := h
    obtain ⟨us, hus⟩ := ih hvs
    rw [endlessTokens, hus]
    exact ⟨_, rfl⟩
  | case15 members body ps ih ts h =>
    rw [List.cons_append, endlessTokens, bind_eq_ok] at h
    obtain ⟨more, hmore, h⟩ := h
    obtain ⟨vs, hvs, -⟩ := bind_eq_ok.1 h
    obtain ⟨us, hus⟩ := ih hvs
    rw [endlessTokens, hmore, hus]
    exact ⟨_, rfl⟩

/-! ## The two patterns -/

/-- What a pattern of a whole folder ends in. -/
def subtreeEnd : Text := ['/', '*', '*']

theorem cutPieces_subtreeEnd : cutPieces subtreeEnd = [.literal '/', .anything] := by
  simp [subtreeEnd, cutPieces]

theorem tokens_subtreeEnd :
    tokens [.literal '/', .anything] = .ok [.one (.only '/'), .many (.allBut '\n')] := by
  simp [tokens, Except.map]

theorem dropHere_append (u : Text) {v : Text} (hv : v.head? ≠ some '.') :
    dropHere (u ++ v) = dropHere u ++ v ∨
      dropHere u = ['.'] ∧ ∃ w, v = '/' :: w ∧ dropHere (u ++ v) = dropHere w := by
  induction u using dropHere.induct with
  | case1 t ih => exact ih
  | case2 t ht =>
    have hu : dropHere t = t := dropHere.eq_2 t ht
    rcases t with _ | ⟨c, _ | ⟨d, t⟩⟩
    · refine .inl (dropHere.eq_2 _ ?_)
      rintro w rfl
      simp at hv
    · by_cases hdot : c = '.' ∧ v.head? = some '/'
      · obtain ⟨rfl, hslash⟩ := hdot
        rcases v with _ | ⟨e, w⟩
        · simp at hslash
        · obtain rfl : e = '/' := by simpa using hslash
          exact .inr ⟨hu, w, rfl, rfl⟩
      · rw [hu]
        refine .inl (dropHere.eq_2 _ ?_)
        rintro w h
        obtain ⟨rfl, rfl⟩ : c = '.' ∧ v = '/' :: w := by simpa using h
        exact hdot ⟨rfl, rfl⟩
    · rw [hu]
      refine .inl (dropHere.eq_2 _ ?_)
      rintro w h
      obtain ⟨rfl, rfl, rfl⟩ : c = '.' ∧ d = '/' ∧ t ++ v = w := by simpa using h
      exact ht t rfl

theorem backslash_not_mem_replaceChar (t : Text) : '\\' ∉ Text.replaceChar '\\' '/' t := by
  intro h
  obtain ⟨c, -, hc⟩ := List.mem_map.1 h
  split at hc
  · simp at hc
  · exact absurd hc ‹_›

theorem subtreePattern?_eq_some {p q : Text} :
    subtreePattern? p = some q ↔
      Text.replaceChar '\\' '/' p.strip = q ++ subtreeEnd ∧ q ≠ [] := by
  rw [subtreePattern?]
  constructor
  · intro h
    split at h
    · next hp =>
      obtain ⟨hend, hlen⟩ := hp
      obtain ⟨r, hr⟩ := List.isSuffixOf_iff_suffix.1 hend
      rw [← hr] at h hlen ⊢
      cases h
      have htake : (r ++ "/**".toList).take ((r ++ "/**".toList).length - 3) = r := by
        simp
      rw [htake]
      refine ⟨rfl, ?_⟩
      rintro rfl
      simp at hlen
    · cases h
  · rintro ⟨h, hne⟩
    have hlen : 3 < (q ++ subtreeEnd).length := by
      have := List.length_pos_of_ne_nil hne
      simp [subtreeEnd]
      omega
    rw [h, if_pos ⟨List.isSuffixOf_iff_suffix.2 (List.suffix_append _ _), hlen⟩]
    simp [subtreeEnd]

/-- The text that is read for the whole pattern, and the one that is read for the folders. -/
theorem normalize_of_subtreePattern {p q : Text} (h : subtreePattern? p = some q) :
    normalize p = dropHere (q ++ subtreeEnd) ∧ normalize q = dropHere q.stripRight := by
  obtain ⟨hp, hne⟩ := subtreePattern?_eq_some.1 h
  have hback : '\\' ∉ q := by
    have := backslash_not_mem_replaceChar p.strip
    rw [hp] at this
    simp at this
    exact this.1
  have hhead : ∀ c, q.head? = some c → Text.isBlank c = false := by
    intro c hc
    have hhead : (Text.replaceChar '\\' '/' p.strip).head? = some c := by
      rw [hp, List.head?_append, hc]
      rfl
    rw [Text.replaceChar, List.head?_map, Option.map_eq_some_iff] at hhead
    obtain ⟨d, hd, rfl⟩ := hhead
    split
    · decide
    · exact Text.head_strip hd
  obtain ⟨w, hw, -⟩ := Text.exists_blanks q
  refine ⟨by rw [normalize, hp], ?_⟩
  rw [normalize, Text.strip, Text.stripLeft_of_head hhead, Text.replaceChar_of_not_mem]
  intro hmem
  exact hback (hw ▸ List.mem_append_left w hmem)

/-- The two texts differ by blanks and the end. -/
theorem exists_normalized {p q : Text} (h : subtreePattern? p = some q) :
    ∃ u w, q = u ++ w ∧ (∀ c ∈ w, Text.isBlank c = true) ∧
      normalize p = dropHere (u ++ (w ++ subtreeEnd)) ∧ normalize q = dropHere u := by
  obtain ⟨hp, hq⟩ := normalize_of_subtreePattern h
  obtain ⟨w, hw, hblank⟩ := Text.exists_blanks q
  refine ⟨q.stripRight, w, hw, hblank, ?_, hq⟩
  rw [hp, ← List.append_assoc, ← hw]

/-! ## The end of a pattern of a whole folder -/

section End

variable {w : Text} (hw : ∀ c ∈ w, Text.isBlank c = true)

include hw

theorem not_mem_blanks_subtreeEnd {c : Char} (hc : Text.isBlank c = false) (hslash : c ≠ '/')
    (hstar : c ≠ '*') : c ∉ w ++ subtreeEnd := by
  intro h
  rcases List.mem_append.1 h with h | h
  · rw [hw c h] at hc
    cases hc
  · simp [subtreeEnd, hslash, hstar] at h

theorem head_blanks_subtreeEnd {c : Char} (hc : Text.isBlank c = false) (hslash : c ≠ '/') :
    (w ++ subtreeEnd).head? ≠ some c := by
  rcases w with _ | ⟨d, w⟩
  · simpa [subtreeEnd] using hslash.symm
  · rintro ⟨⟩
    rw [hw c (by simp)] at hc
    cases hc

theorem isPlain_blanks_subtreeEnd : ∀ p ∈ cutPieces (w ++ subtreeEnd), p.IsPlain := by
  induction w with
  | nil =>
    rw [List.nil_append, cutPieces_subtreeEnd]
    simp
  | cons c w ih =>
    have hc := hw c (by simp)
    have ne {d : Char} (hd : Text.isBlank d = false) : c ≠ d := by
      rintro rfl
      rw [hc] at hd
      cases hd
    rw [List.cons_append, cutPieces_literal _ (ne (by decide)) (ne (by decide)) (ne (by decide))]
    intro p hp
    rcases List.mem_cons.1 hp with rfl | hp
    · trivial
    · exact ih (fun d hd => hw d (by simp [hd])) p hp

end End

theorem isPlain_of_slash {rest : Text} (h : ∀ p ∈ cutPieces ('/' :: rest), p.IsPlain) :
    ∀ p ∈ cutPieces rest, p.IsPlain := by
  rw [cutPieces_literal rest (by decide) (by decide) (by decide)] at h
  exact fun p hp => h p (List.mem_cons_of_mem _ hp)

/-- The pattern of the folders can be read if the whole pattern can. -/
theorem exists_parse_subtreePattern {p q : Text} {ts : List Token} (hp : parse p = .ok ts)
    (hq : subtreePattern? p = some q) : ∃ us, parse q = .ok us := by
  obtain ⟨u, w, -, hw, hnormp, hnormq⟩ := exists_normalized hq
  have hplain := isPlain_blanks_subtreeEnd hw
  rw [parse, hnormp] at hp
  rw [parse, hnormq]
  rcases dropHere_append u (head_blanks_subtreeEnd hw (c := '.') (by decide) (by decide)) with
    happ | ⟨hdot, -⟩
  · rw [happ] at hp
    rcases cutPieces_append (dropHere u)
      (not_mem_blanks_subtreeEnd hw (c := ']') (by decide) (by decide) (by decide))
      (head_blanks_subtreeEnd hw (c := '*') (by decide) (by decide)) with
      hjoin | ⟨before, rest, hv, hbefore, hjoin⟩
    · rw [hjoin] at hp
      exact exists_tokens_of_append hplain hp
    · rw [hv] at hplain
      rw [hjoin] at hp
      have hrest : ∀ p ∈ Piece.folders :: cutPieces rest, p.IsPlain := by
        simpa using isPlain_of_slash hplain
      obtain ⟨us, hus⟩ := exists_tokens_of_append hrest hp
      rw [hbefore, tokens_append _ hus]
      exact ⟨_, rfl⟩
  · rw [hdot]
    exact ⟨[.one (.only '.')], by simp [cutPieces, tokens, Except.map]⟩

/-- Whatever is in a folder that is passed over is excluded by the whole pattern. -/
theorem matches_of_subtreePattern {p q : Text} {ts us : List Token} (hp : parse p = .ok ts)
    (hq : subtreePattern? p = some q) (hus : parse q = .ok us)
    (hblank : ∀ c, q.getLast? = some c → Text.isBlank c = false) {d x : Text}
    (hmatch : Matches us d) (hd : '\n' ∉ d) (hx : '\n' ∉ x) : Matches ts (d ++ '/' :: x) := by
  have many_newline_free {y : Text} (hy : '\n' ∉ y) :
      (Token.many (.allBut '\n')).Takes y := by
    intro c hc
    rw [CharSet.contains_allBut]
    rintro rfl
    exact hy hc
  obtain ⟨u, w, hqw, hw, hnormp, hnormq⟩ := exists_normalized hq
  obtain rfl : w = [] := by
    rcases List.eq_nil_or_concat w with rfl | ⟨w, c, rfl⟩
    · rfl
    · have hc := hblank c (by simp [hqw])
      rw [hw c (by simp)] at hc
      cases hc
  rw [List.nil_append] at hnormp
  rw [parse, hnormp] at hp
  rw [parse, hnormq] at hus
  rcases dropHere_append u (v := subtreeEnd) (by simp [subtreeEnd]) with
    happ | ⟨hdot, rest, hv, happ⟩
  · rw [happ] at hp
    rcases cutPieces_append (dropHere u) (v := subtreeEnd) (by simp [subtreeEnd])
      (by simp [subtreeEnd]) with hjoin | ⟨before, rest, hv, hbefore, hjoin⟩
    · -- The pieces of the folders stand unchanged before the slash.
      rw [hjoin, tokens_append _ hus, cutPieces_subtreeEnd, tokens_subtreeEnd] at hp
      cases hp
      refine matches_append.2 ⟨d, '/' :: x, rfl, hmatch, ['/'], x, rfl, ⟨'/', by simp, rfl⟩, ?_⟩
      exact matches_singleton.2 (many_newline_free hx)
    · -- The `**` at the end takes what is left of the folder, slash included.
      obtain rfl : ['*', '*'] = rest := by simpa [subtreeEnd] using hv
      have hpieces : cutPieces ['*', '*'] = [.anything] := by simp [cutPieces]
      rw [hjoin, hpieces] at hp
      have hrest : ∀ p ∈ [Piece.folders, .anything], p.IsPlain := by simp
      obtain ⟨vs, hvs⟩ := exists_tokens_of_append hrest hp
      rw [hbefore, tokens_append _ hvs] at hus
      rw [tokens_append _ hvs] at hp
      cases hus
      cases hp
      obtain ⟨a, b, rfl, ha, hb⟩ := matches_append.1 hmatch
      refine matches_append.2 ⟨a, b ++ '/' :: x, by simp, ha, b ++ ['/'], x, by simp, ?_, ?_⟩
      · exact .inr ⟨b, rfl, fun h => hd (List.mem_append_right a h)⟩
      · exact matches_singleton.2 (many_newline_free hx)
  · -- Only the top folder is passed over, and the whole pattern takes everything.
    obtain rfl : ['*', '*'] = rest := by simpa [subtreeEnd] using hv
    have hts : ts = [.many (.allBut '\n')] := by
      rw [happ] at hp
      simpa [dropHere, cutPieces, tokens, Except.map] using hp.symm
    rw [hts]
    refine matches_singleton.2 (many_newline_free ?_)
    simp [hd, hx]

end InsecureLinks.Glob
