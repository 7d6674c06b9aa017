import Mathlib
import InsecureLinks.Proofs.Glob.Language
import InsecureLinks.Proofs.Glob.Pieces
import InsecureLinks.Proofs.Outcome

/-!
# What a pattern means

The meaning of patterns without the tokens that a matcher works on: how a pattern is cut into pieces
(`IsRead`), which characters a class admits (`Admits`), and which texts a piece takes
(`Piece.Takes`).  A path is accepted exactly if it can be cut into texts that the pieces take, one
by one (`accepts_iff_takes`).  Left out are the patterns with a class that is only a negation mark,
since such a class does not end where it should.
-/

namespace InsecureLinks.Glob

/-! ## Classes -/

/-- Whether a character is among the characters and ranges of a class body. -/
inductive Lists : Text → Char → Prop
  | range {a b c t} (hlo : a.toNat ≤ c.toNat) (hhi : c.toNat ≤ b.toNat) :
      Lists (a :: '-' :: b :: t) c
  | afterRange {a b c t} (h : Lists t c) : Lists (a :: '-' :: b :: t) c
  | single {a t} (hrange : ∀ b u, t ≠ '-' :: b :: u) : Lists (a :: t) a
  | afterSingle {a c t} (hrange : ∀ b u, t ≠ '-' :: b :: u) (h : Lists t c) : Lists (a :: t) c

/-- Whether a class with a body takes a character: one that is not listed, if the body begins with
`!` or `^`, and otherwise one that is. -/
def Admits : Text → Char → Prop
  | '!' :: t, c => ¬Lists t c
  | '^' :: t, c => ¬Lists t c
  | t, c => Lists t c

theorem lists_nil {c : Char} : ¬Lists [] c := by
  rintro ⟨⟩

theorem lists_range {a b c : Char} {t : Text} :
    Lists (a :: '-' :: b :: t) c ↔ a.toNat ≤ c.toNat ∧ c.toNat ≤ b.toNat ∨ Lists t c := by
  constructor
  · rintro (⟨hlo, hhi⟩ | h | hrange | ⟨hrange, -⟩)
    · exact .inl ⟨hlo, hhi⟩
    · exact .inr h
    · exact absurd rfl (hrange b t)
    · exact absurd rfl (hrange b t)
  · rintro (⟨hlo, hhi⟩ | h)
    · exact .range hlo hhi
    · exact .afterRange h

theorem lists_single {a c : Char} {t : Text} (hrange : ∀ b u, t ≠ '-' :: b :: u) :
    Lists (a :: t) c ↔ c = a ∨ Lists t c := by
  constructor
  · intro h
    cases h with
    | range => exact absurd rfl (hrange _ _)
    | afterRange => exact absurd rfl (hrange _ _)
    | single => exact .inl rfl
    | afterSingle _ h => exact .inr h
  · rintro (rfl | h)
    · exact .single hrange
    · exact .afterSingle hrange h

/-- The ranges that are read off a class body hold the characters that it lists. -/
theorem any_readRanges {t : Text} {rs : List (Char × Char)} (h : readRanges t = .ok rs) (c : Char) :
    (rs.any fun (lo, hi) => lo.toNat ≤ c.toNat && c.toNat ≤ hi.toNat) = true ↔ Lists t c := by
  induction t using readRanges.induct generalizing rs with
  | case1 =>
    rw [readRanges] at h
    cases h
    simp [lists_nil]
  | case2 a b t hreversed =>
    rw [readRanges, if_pos hreversed] at h
    cases h
  | case3 a b t hordered ih =>
    rw [readRanges, if_neg hordered, map_eq_ok] at h
    obtain ⟨rest, hrest, rfl⟩ := h
    rw [List.any_cons, Bool.or_eq_true, ih hrest, lists_range]
    simp
  | case4 a t hrange ih =>
    rw [readRanges.eq_3 a t hrange, map_eq_ok] at h
    obtain ⟨rest, hrest, rfl⟩ := h
    have hsame : (decide (a.toNat ≤ c.toNat) && decide (c.toNat ≤ a.toNat)) = true ↔ c = a := by
      rw [← Char.toNat_inj, Bool.and_eq_true, decide_eq_true_iff, decide_eq_true_iff]
      omega
    rw [List.any_cons, Bool.or_eq_true, ih hrest, lists_single hrange, hsame]

/-- The set of a class body holds what the class takes. -/
theorem contains_readSet {body : Text} {s : CharSet} (h : readSet body = .ok s) (c : Char) :
    s.contains c = true ↔ Admits body c := by
  have hset : ∀ {t : Text} {negated : Bool},
      (readRanges t).map (CharSet.mk negated) = .ok s →
        (s.contains c = true ↔ if negated then ¬Lists t c else Lists t c) := by
    intro t negated hmap
    obtain ⟨rs, hrs, rfl⟩ := map_eq_ok.1 hmap
    have hany := any_readRanges hrs c
    rcases negated with _ | _
    · simpa [CharSet.contains] using hany
    · simpa [CharSet.contains] using not_congr hany
  fun_cases readSet body with
  | case1 t => exact hset h
  | case2 t => exact hset h
  | case3 _ hmark hcaret =>
    rw [readSet.eq_3 body hmark hcaret] at h
    rw [Admits.eq_3 body c hmark hcaret]
    exact hset h

/-! ## Pieces -/

/-- The texts that a piece of a pattern takes. -/
def Piece.Takes : Piece → Text → Prop
  | .folders, x => x = [] ∨ ∃ y, x = y ++ ['/'] ∧ '\n' ∉ y
  | .anything, x => '\n' ∉ x
  | .segment, x => '/' ∉ x
  | .character, x => ∃ c, c ≠ '/' ∧ x = [c]
  | .set body, x => ∃ c, Admits body c ∧ x = [c]
  | .literal c, x => x = [c]

/-- How a pattern is read from left to right.  A bracket opens a class if there is a text up to the
next closing one; otherwise it stands for itself. -/
inductive IsRead : Text → List Piece → Prop
  | nil : IsRead [] []
  | folders {t ps} (h : IsRead t ps) : IsRead ('*' :: '*' :: '/' :: t) (.folders :: ps)
  | anything {t ps} (hnext : t.head? ≠ some '/') (h : IsRead t ps) :
      IsRead ('*' :: '*' :: t) (.anything :: ps)
  | segment {t ps} (hnext : t.head? ≠ some '*') (h : IsRead t ps) :
      IsRead ('*' :: t) (.segment :: ps)
  | character {t ps} (h : IsRead t ps) : IsRead ('?' :: t) (.character :: ps)
  | set {body t ps} (hne : body ≠ []) (hbody : ']' ∉ body) (h : IsRead t ps) :
      IsRead ('[' :: (body ++ ']' :: t)) (.set body :: ps)
  | bracket {t ps} (hnext : t.head? = some ']' ∨ ']' ∉ t) (h : IsRead t ps) :
      IsRead ('[' :: t) (.literal '[' :: ps)
  | literal {c t ps} (hc : c ∉ ['*', '?', '[']) (h : IsRead t ps) :
      IsRead (c :: t) (.literal c :: ps)

theorem cutFirst?_append_cons {sep : Char} {a : Text} (h : sep ∉ a) (t : Text) :
    Text.cutFirst? sep (a ++ sep :: t) = some (a, t) := by
  induction a with
  | nil => rw [List.nil_append, Text.cutFirst?, if_pos rfl]
  | cons c a ih =>
    simp only [List.mem_cons, not_or] at h
    rw [List.cons_append, Text.cutFirst?, if_neg (Ne.symm h.1), ih h.2]
    rfl

theorem cutClass?_append_cons {body : Text} (hne : body ≠ []) (hbody : ']' ∉ body) (t : Text) :
    cutClass? (body ++ ']' :: t) = some (body, t) := by
  rw [cutClass?, cutFirst?_append_cons hbody]
  obtain ⟨b, body, rfl⟩ := List.exists_cons_of_ne_nil hne
  rfl

/-- Whether a class opens before a text. -/
theorem cutClass?_cases (t : Text) :
    (t.head? = some ']' ∨ ']' ∉ t) ∧ cutClass? t = none ∨
      ∃ body rest, t = body ++ ']' :: rest ∧ body ≠ [] ∧ ']' ∉ body := by
  by_cases hmem : ']' ∈ t
  · obtain ⟨a, b, rfl, ha⟩ := List.eq_append_cons_of_mem hmem
    rcases a with _ | ⟨c, a⟩
    · exact .inl ⟨.inl rfl, rfl⟩
    · exact .inr ⟨c :: a, b, rfl, List.cons_ne_nil c a, ha⟩
  · exact .inl ⟨.inr hmem, by rw [cutClass?, cutFirst?_of_not_mem hmem]⟩

theorem cutClass?_eq_none {t : Text} (h : t.head? = some ']' ∨ ']' ∉ t) : cutClass? t = none := by
  obtain ⟨-, hnone⟩ | ⟨body, rest, rfl, hne, hbody⟩ := cutClass?_cases t
  · exact hnone
  · obtain ⟨b, body, rfl⟩ := List.exists_cons_of_ne_nil hne
    simp_all

theorem head_ne_of_forall {c : Char} {t : Text} (h : ∀ u, t = c :: u → False) :
    t.head? ≠ some c := by
  rcases t with _ | ⟨d, t⟩
  · simp
  · rintro ⟨⟩
    exact h t rfl

/-- Every pattern can be read, as it is cut. -/
theorem isRead_cutPieces (t : Text) : IsRead t (cutPieces t) := by
  induction t using cutPieces.induct with
  | case1 =>
    rw [cutPieces]
    exact .nil
  | case2 t ih =>
    rw [cutPieces_folders]
    exact .folders ih
  | case3 t ht ih =>
    rw [cutPieces.eq_3 t ht]
    exact .anything (head_ne_of_forall ht) ih
  | case4 t _ ht ih =>
    rw [cutPieces_segment (head_ne_of_forall ht)]
    exact .segment (head_ne_of_forall ht) ih
  | case5 t ih =>
    rw [cutPieces.eq_5]
    exact .character ih
  | case6 t body rest hclass _ ih =>
    rw [cutPieces_set hclass]
    obtain ⟨-, hnone⟩ | ⟨body', rest', rfl, hne, hbody⟩ := cutClass?_cases t
    · rw [hnone] at hclass
      cases hclass
    · rw [cutClass?_append_cons hne hbody] at hclass
      cases hclass
      exact .set hne hbody ih
  | case7 t hclass ih =>
    rw [cutPieces_bracket hclass]
    obtain ⟨hnext, -⟩ | ⟨body, rest, rfl, hne, hbody⟩ := cutClass?_cases t
    · exact .bracket hnext ih
    · rw [cutClass?_append_cons hne hbody] at hclass
      cases hclass
  | case8 c t _ _ hstar hmark hbracket ih =>
    rw [cutPieces_literal t hstar hmark hbracket]
    exact .literal (by simpa using ⟨hstar, hmark, hbracket⟩) ih

theorem isRead_iff {t : Text} {ps : List Piece} : IsRead t ps ↔ cutPieces t = ps := by
  constructor
  · intro h
    induction h with
    | nil => rw [cutPieces]
    | folders _ ih => rw [cutPieces_folders, ih]
    | anything hnext _ ih => rw [cutPieces_anything hnext, ih]
    | segment hnext _ ih => rw [cutPieces_segment hnext, ih]
    | character _ ih => rw [cutPieces.eq_5, ih]
    | set hne hbody _ ih => rw [cutPieces_set (cutClass?_append_cons hne hbody _), ih]
    | bracket hnext _ ih => rw [cutPieces_bracket (cutClass?_eq_none hnext), ih]
    | literal hc _ ih =>
      simp only [List.mem_cons, List.not_mem_nil, or_false, not_or] at hc
      rw [cutPieces_literal _ hc.1 hc.2.1 hc.2.2, ih]
  · rintro rfl
    exact isRead_cutPieces t

/-! ## From pieces to tokens -/

theorem map_cons_eq_ok {x : Except Error (List Token)} {k : Token} {ts : List Token}
    (h : x.map (k :: ·) = .ok ts) : ∃ ts', x = .ok ts' ∧ ts = k :: ts' := by
  obtain ⟨ts', hx, rfl⟩ := map_eq_ok.1 h
  exact ⟨ts', hx, rfl⟩

/-- A piece that is not a bare negation becomes one token, which takes the same texts. -/
theorem exists_token_of_cons {p : Piece} {ps : List Piece} {ts : List Token}
    (hp : ∀ body, p = .set body → isBareNegation body = false) (h : tokens (p :: ps) = .ok ts) :
    ∃ k ts', tokens ps = .ok ts' ∧ ts = k :: ts' ∧ ∀ x, k.Takes x ↔ p.Takes x := by
  have allBut (c : Char) (x : Text) :
      (∀ d ∈ x, (CharSet.allBut c).contains d = true) ↔ c ∉ x := by
    simp only [CharSet.contains_allBut]
    exact ⟨fun hx hc => hx c hc rfl, fun hc d hd hdc => hc (hdc ▸ hd)⟩
  cases p with
  | folders =>
    rw [tokens] at h
    obtain ⟨ts', hts, rfl⟩ := map_cons_eq_ok h
    exact ⟨_, ts', hts, rfl, fun x => Iff.rfl⟩
  | anything =>
    rw [tokens] at h
    obtain ⟨ts', hts, rfl⟩ := map_cons_eq_ok h
    exact ⟨_, ts', hts, rfl, allBut '\n'⟩
  | segment =>
    rw [tokens] at h
    obtain ⟨ts', hts, rfl⟩ := map_cons_eq_ok h
    exact ⟨_, ts', hts, rfl, allBut '/'⟩
  | character =>
    rw [tokens] at h
    obtain ⟨ts', hts, rfl⟩ := map_cons_eq_ok h
    refine ⟨_, ts', hts, rfl, fun x => ?_⟩
    simp only [Token.Takes, Piece.Takes, CharSet.contains_allBut]
  | literal c =>
    rw [tokens] at h
    obtain ⟨ts', hts, rfl⟩ := map_cons_eq_ok h
    refine ⟨_, ts', hts, rfl, fun x => ?_⟩
    simp only [Token.Takes, Piece.Takes, CharSet.contains_only, exists_eq_left]
  | set body =>
    rw [tokens, if_neg (by simp [hp body rfl])] at h
    obtain ⟨s, hs, h⟩ := bind_eq_ok.1 h
    obtain ⟨ts', hts, h⟩ := bind_eq_ok.1 h
    refine ⟨_, ts', hts, (Except.ok.inj h).symm, fun x => ?_⟩
    simp only [Token.Takes, Piece.Takes, contains_readSet hs]

/-- The tokens of some pieces match what can be cut into texts that the pieces take. -/
theorem matches_tokens_iff {ps : List Piece} {ts : List Token} (h : tokens ps = .ok ts)
    (hps : ∀ body, .set body ∈ ps → isBareNegation body = false) (path : Text) :
    Matches ts path ↔ ∃ us, us.flatten = path ∧ List.Forall₂ Piece.Takes ps us := by
  induction ps generalizing ts path with
  | nil =>
    rw [tokens] at h
    cases h
    simp [Matches, eq_comm]
  | cons p ps ih =>
    obtain ⟨k, ts', hts, rfl, htakes⟩ :=
      exists_token_of_cons (fun body hp => hps body (by simp [hp])) h
    have ih := ih hts fun body hbody => hps body (List.mem_cons_of_mem _ hbody)
    constructor
    · rintro ⟨u, v, rfl, hu, hv⟩
      obtain ⟨us, rfl, hus⟩ := (ih v).1 hv
      exact ⟨u :: us, rfl, .cons ((htakes u).1 hu) hus⟩
    · rintro ⟨us, rfl, hus⟩
      cases hus with
      | @cons _ u _ us hu hus =>
        exact ⟨u, us.flatten, rfl, (htakes u).2 hu, (ih _).2 ⟨us, rfl, hus⟩⟩

/-! ## Patterns -/

/-- Whether `t` is a pattern without blanks at its ends, with forward slashes, and without any `./`
that opened it. -/
def IsNormalForm (pattern t : Text) : Prop :=
  ∃ n, Text.replaceChar '\\' '/' pattern.strip = (List.replicate n ['.', '/']).flatten ++ t ∧
    ¬['.', '/'] <+: t

theorem dropHere_replicate (n : ℕ) {t : Text} (h : ¬['.', '/'] <+: t) :
    dropHere ((List.replicate n ['.', '/']).flatten ++ t) = t := by
  induction n with
  | zero =>
    refine dropHere.eq_2 t fun u hu => h ?_
    exact ⟨u, hu.symm⟩
  | succ n ih =>
    rw [List.replicate_succ, List.flatten_cons, List.append_assoc]
    exact (dropHere.eq_1 _).trans ih

theorem exists_replicate_dropHere (t : Text) :
    ∃ n, t = (List.replicate n ['.', '/']).flatten ++ dropHere t ∧ ¬['.', '/'] <+: dropHere t := by
  induction t using dropHere.induct with
  | case1 t ih =>
    obtain ⟨n, ht, hprefix⟩ := ih
    refine ⟨n + 1, ?_, by rwa [dropHere]⟩
    rw [List.replicate_succ, List.flatten_cons, List.append_assoc, dropHere, ← ht]
    rfl
  | case2 t ht =>
    rw [dropHere.eq_2 t ht]
    refine ⟨0, rfl, ?_⟩
    rintro ⟨u, rfl⟩
    exact ht u rfl

theorem isNormalForm_iff {pattern t : Text} : IsNormalForm pattern t ↔ normalize pattern = t := by
  rw [normalize]
  constructor
  · rintro ⟨n, hpattern, hprefix⟩
    rw [hpattern, dropHere_replicate n hprefix]
  · rintro rfl
    exact exists_replicate_dropHere _

/-- A pattern that can be read and has no bare negation accepts the paths that can be cut into
texts that its pieces take, one after another. -/
theorem accepts_iff_takes {pattern : Text} {ts : List Token} (hparse : parse pattern = .ok ts)
    (hbare : ∀ t ps body, IsNormalForm pattern t → IsRead t ps → .set body ∈ ps →
      body ≠ ['!'] ∧ body ≠ ['^']) (path : Text) :
    accepts ts path = true ↔ ∃ t ps us, IsNormalForm pattern t ∧ IsRead t ps ∧
      us.flatten = path ∧ List.Forall₂ Piece.Takes ps us := by
  have hbare : ∀ body, .set body ∈ cutPieces (normalize pattern) → isBareNegation body = false := by
    intro body hbody
    have hne := hbare _ _ body (isNormalForm_iff.2 rfl) (isRead_cutPieces _) hbody
    simp [isBareNegation, hne]
  rw [accepts_iff, matches_tokens_iff hparse hbare]
  -- A pattern has one normal form, and that can be read in one way.
  constructor
  · rintro ⟨us, hpath, hus⟩
    exact ⟨_, _, us, isNormalForm_iff.2 rfl, isRead_cutPieces _, hpath, hus⟩
  · rintro ⟨t, ps, us, hnormal, hread, hpath, hus⟩
    obtain rfl := isNormalForm_iff.1 hnormal
    obtain rfl := isRead_iff.1 hread
    exact ⟨us, hpath, hus⟩

/-- A pattern with every kind of piece in it. -/
def everyPiece : Text := " ./**/a\\?[!b-dx]*[]**[ ".toList

theorem accepts_iff_takes_everyPiece : ∃ ts, parse everyPiece = .ok ts ∧
    (∀ t ps body, IsNormalForm everyPiece t → IsRead t ps → .set body ∈ ps →
      body ≠ ['!'] ∧ body ≠ ['^']) ∧
    accepts ts "u/v/a/wey[]/z[".toList = true ∧
    ∃ t ps us, IsNormalForm everyPiece t ∧ IsRead t ps ∧ us.flatten = "u/v/a/wey[]/z[".toList ∧
      List.Forall₂ Piece.Takes ps us := by
  have hpieces : cutPieces (normalize everyPiece) =
      [.folders, .literal 'a', .literal '/', .character, .set "!b-dx".toList, .segment,
        .literal '[', .literal ']', .anything, .literal '['] := by cbv
  obtain ⟨ts, hparse, haccepts⟩ : ∃ ts, parse everyPiece = .ok ts ∧
      accepts ts "u/v/a/wey[]/z[".toList = true :=
    ⟨[.folders, .one (.only 'a'), .one (.only '/'), .one (.allBut '/'),
      .one ⟨true, [('b', 'd'), ('x', 'x')]⟩, .many (.allBut '/'), .one (.only '['),
      .one (.only ']'), .many (.allBut '\n'), .one (.only '[')], by cbv, by cbv⟩
  have hbare : ∀ t ps body, IsNormalForm everyPiece t → IsRead t ps → .set body ∈ ps →
      body ≠ ['!'] ∧ body ≠ ['^'] := by
    intro t ps body hnormal hread hbody
    obtain rfl := isNormalForm_iff.1 hnormal
    rw [isRead_iff, hpieces] at hread
    subst hread
    obtain rfl : body = "!b-dx".toList := by simpa using hbody
    decide
  exact ⟨ts, hparse, hbare, haccepts, (accepts_iff_takes hparse hbare _).1 haccepts⟩

end InsecureLinks.Glob
