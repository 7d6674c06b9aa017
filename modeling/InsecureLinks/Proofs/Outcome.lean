import Mathlib

/-!
# Computations that may fail

When a computation made of several succeeds, each of them has succeeded.
-/

namespace InsecureLinks

universe u v

theorem map_eq_ok {ε : Type u} {α β : Type v} {f : α → β} {x : Except ε α} {b : β} :
    x.map f = .ok b ↔ ∃ a, x = .ok a ∧ f a = b := by
  rcases x with e | a
  · simp [Except.map]
  · simp [Except.map]

theorem map_eq_error {ε : Type u} {α β : Type v} {f : α → β} {x : Except ε α} {e : ε} :
    x.map f = .error e ↔ x = .error e := by
  rcases x with e' | a
  · simp [Except.map]
  · simp [Except.map]

theorem bind_eq_ok {ε : Type u} {α β : Type v} {f : α → Except ε β} {x : Except ε α} {b : β} :
    x >>= f = .ok b ↔ ∃ a, x = .ok a ∧ f a = .ok b := by
  rcases x with e | a
  · simp [bind, Except.bind]
  · simp [bind, Except.bind]

theorem bind_eq_error {ε : Type u} {α β : Type v} {f : α → Except ε β} {x : Except ε α} {e : ε} :
    x >>= f = .error e ↔ x = .error e ∨ ∃ a, x = .ok a ∧ f a = .error e := by
  rcases x with e' | a
  · simp [bind, Except.bind]
  · simp [bind, Except.bind]

theorem mapError_eq_ok {ε ε' : Type u} {α : Type v} {f : ε → ε'} {x : Except ε α} {a : α} :
    x.mapError f = .ok a ↔ x = .ok a := by
  rcases x with e | b
  · simp [Except.mapError]
  · simp [Except.mapError]

theorem mapError_eq_error {ε ε' : Type u} {α : Type v} {f : ε → ε'} {x : Except ε α} {e' : ε'} :
    x.mapError f = .error e' ↔ ∃ e, x = .error e ∧ f e = e' := by
  rcases x with e | a
  · simp [Except.mapError]
  · simp [Except.mapError]

/-- Two computations that give the same, if anything, both succeed or both fail. -/
theorem toOption_eq_iff {ε : Type u} {α : Type v} {x y : Except ε α} :
    x.toOption = y.toOption ↔
      (∃ a, x = .ok a ∧ y = .ok a) ∨ ∃ e e', x = .error e ∧ y = .error e' := by
  rcases x with e | a
  · rcases y with e' | b
    · simp [Except.toOption]
    · simp [Except.toOption]
  · rcases y with e' | b
    · simp [Except.toOption]
    · simp [Except.toOption, eq_comm]

/-- A list is gone through to the end if what holds of each state lets the next step succeed and
holds of the state after it. -/
theorem foldlM_eq_ok {ε : Type u} {α σ : Type v} {step : σ → α → Except ε σ} {P : σ → Prop}
    {as : List α} (hstep : ∀ a ∈ as, ∀ s, P s → ∃ s', step s a = .ok s' ∧ P s') {s : σ} (hs : P s) :
    ∃ s', as.foldlM step s = .ok s' ∧ P s' := by
  induction as generalizing s with
  | nil => exact ⟨s, rfl, hs⟩
  | cons a as ih =>
    obtain ⟨s', hs', hP⟩ := hstep a (by simp) s hs
    obtain ⟨s'', hs'', hP''⟩ := ih (fun b hb => hstep b (by simp [hb])) hP
    refine ⟨s'', ?_, hP''⟩
    rw [List.foldlM_cons, hs']
    exact hs''

/-- Where a list is gone through to the end, every step has succeeded. -/
theorem exists_step_of_foldlM {ε : Type u} {α σ : Type v} {step : σ → α → Except ε σ} {as : List α}
    {s s' : σ} (h : as.foldlM step s = .ok s') : ∀ a ∈ as, ∃ t t', step t a = .ok t' := by
  induction as generalizing s with
  | nil => simp
  | cons a as ih =>
    rw [List.foldlM_cons, bind_eq_ok] at h
    obtain ⟨s₁, hs₁, h⟩ := h
    exact List.forall_mem_cons.2 ⟨⟨s, s₁, hs₁⟩, ih h⟩

/-- Two ways to go through a list keep a relation between their states if each step of the one keeps
it together with that of the other, and so do the steps of the other at elements that the one leaves
out. -/
theorem foldlM_filter_related {ε : Type u} {α : Type v} {σ τ : Type v} {step : σ → α → Except ε σ}
    {step' : τ → α → Except ε τ} {R : σ → τ → Prop} (keep : α → Bool) {as : List α}
    (hstep : ∀ a ∈ as, keep a = true → ∀ s t s₁ t₁, R s t → step s a = .ok s₁ →
      step' t a = .ok t₁ → R s₁ t₁)
    (hskip : ∀ a ∈ as, keep a = false → ∀ s t t₁, R s t → step' t a = .ok t₁ → R s t₁)
    {s s₁ : σ} {t t₁ : τ} (hR : R s t) (h : (as.filter keep).foldlM step s = .ok s₁)
    (h' : as.foldlM step' t = .ok t₁) : R s₁ t₁ := by
  induction as generalizing s t with
  | nil =>
    cases h
    cases h'
    exact hR
  | cons a as ih =>
    have ih := @ih (fun b hb => hstep b (by simp [hb])) (fun b hb => hskip b (by simp [hb]))
    rw [List.foldlM_cons, bind_eq_ok] at h'
    obtain ⟨t₂, ht₂, h'⟩ := h'
    rcases hkeep : keep a with _ | _
    · rw [List.filter_cons_of_neg (by simp [hkeep])] at h
      exact ih (hskip a (by simp) hkeep s t t₂ hR ht₂) h h'
    · rw [List.filter_cons_of_pos hkeep, List.foldlM_cons, bind_eq_ok] at h
      obtain ⟨s₂, hs₂, h⟩ := h
      exact ih (hstep a (by simp) hkeep s t s₂ t₂ hR hs₂ ht₂) h h'

theorem foldlM_related {ε : Type u} {α : Type v} {σ τ : Type v} {step : σ → α → Except ε σ}
    {step' : τ → α → Except ε τ} {R : σ → τ → Prop} {as : List α}
    (hstep : ∀ a ∈ as, ∀ s t s₁ t₁, R s t → step s a = .ok s₁ → step' t a = .ok t₁ → R s₁ t₁)
    {s s₁ : σ} {t t₁ : τ} (hR : R s t) (h : as.foldlM step s = .ok s₁)
    (h' : as.foldlM step' t = .ok t₁) : R s₁ t₁ :=
  foldlM_filter_related (fun _ => true) (fun a ha _ => hstep a ha)
    (fun _ _ hkeep => nomatch hkeep) hR (by rwa [List.filter_true]) h'

/-- Two ways to go through a list are the same if their steps are the same from every state to which
the one comes. -/
theorem foldlM_congr_of_invariant {ε : Type u} {α σ : Type v} {step step' : σ → α → Except ε σ}
    (P : σ → Prop) {as : List α} (hsame : ∀ a ∈ as, ∀ s, P s → step s a = step' s a)
    (hstep : ∀ a ∈ as, ∀ s s', P s → step s a = .ok s' → P s') {s : σ} (hs : P s) :
    as.foldlM step s = as.foldlM step' s := by
  induction as generalizing s with
  | nil => rfl
  | cons a as ih =>
    rw [List.foldlM_cons, List.foldlM_cons, ← hsame a (by simp) s hs]
    rcases hs₁ : step s a with e | s₁
    · rfl
    · exact ih (fun b hb => hsame b (by simp [hb])) (fun b hb => hstep b (by simp [hb]))
        (hstep a (by simp) s s₁ hs hs₁)

/-- If every step succeeds, so do all of them together, and what they give is there. -/
theorem mapM_eq_ok {ε : Type u} {α β : Type v} {f : α → Except ε β} {as : List α}
    (h : ∀ a ∈ as, ∃ b, f a = .ok b) :
    ∃ bs, as.mapM f = .ok bs ∧ ∀ b, b ∈ bs ↔ ∃ a ∈ as, f a = .ok b := by
  induction as with
  | nil => exact ⟨[], rfl, by simp⟩
  | cons a as ih =>
    obtain ⟨b, hb⟩ := h a (by simp)
    obtain ⟨bs, hbs, hmem⟩ := ih fun a' ha' => h a' (by simp [ha'])
    refine ⟨b :: bs, ?_, ?_⟩
    · rw [List.mapM_cons, hb, hbs]
      rfl
    · intro b'
      simp [hmem, hb, eq_comm]

theorem mapM_eq_ok_map {ε : Type u} {α β : Type v} {f : α → Except ε β} {g : α → β} {as : List α}
    (h : ∀ a ∈ as, f a = .ok (g a)) : as.mapM f = .ok (as.map g) := by
  induction as with
  | nil => rfl
  | cons a as ih =>
    rw [List.mapM_cons, h a (by simp), ih fun b hb => h b (by simp [hb])]
    rfl

/-- If all steps together succeed, so does each. -/
theorem exists_of_mapM {ε : Type u} {α β : Type v} {f : α → Except ε β} {as : List α} {bs : List β}
    (h : as.mapM f = .ok bs) : ∀ a ∈ as, ∃ b, f a = .ok b := by
  induction as generalizing bs with
  | nil => simp
  | cons a as ih =>
    rw [List.mapM_cons, bind_eq_ok] at h
    obtain ⟨b, hb, h⟩ := h
    obtain ⟨bs', hbs, -⟩ := bind_eq_ok.1 h
    exact List.forall_mem_cons.2 ⟨⟨b, hb⟩, ih hbs⟩

theorem length_of_mapM {ε : Type u} {α β : Type v} {f : α → Except ε β} {as : List α} {bs : List β}
    (h : as.mapM f = .ok bs) : bs.length = as.length := by
  induction as generalizing bs with
  | nil =>
    cases h
    rfl
  | cons a as ih =>
    rw [List.mapM_cons, bind_eq_ok] at h
    obtain ⟨b, -, h⟩ := h
    obtain ⟨bs', hbs, h⟩ := bind_eq_ok.1 h
    cases h
    rw [List.length_cons, List.length_cons, ih hbs]

/-- If every step undoes what was done to its element, the list is got back. -/
theorem mapM_map_eq_ok {ε : Type u} {α : Type v} {β : Type} {f : β → Except ε α} {g : α → β}
    (h : ∀ a, f (g a) = .ok a) (as : List α) : (as.map g).mapM f = .ok as := by
  induction as with
  | nil => rfl
  | cons a as ih =>
    rw [List.map_cons, List.mapM_cons, h, ih]
    rfl

/-- What holds of a state and is kept by every step that succeeds holds at the end. -/
theorem foldlM_invariant {ε : Type u} {α σ : Type v} {step : σ → α → Except ε σ} (P : σ → Prop)
    {as : List α} (hstep : ∀ a ∈ as, ∀ s s', P s → step s a = .ok s' → P s') {s s' : σ} (hs : P s)
    (h : as.foldlM step s = .ok s') : P s' := by
  induction as generalizing s with
  | nil =>
    rw [List.foldlM_nil] at h
    cases h
    exact hs
  | cons a as ih =>
    rw [List.foldlM_cons, bind_eq_ok] at h
    obtain ⟨s₁, hs₁, h⟩ := h
    exact ih (fun b hb => hstep b (by simp [hb])) (hstep a (by simp) s s₁ hs hs₁) h

end InsecureLinks
