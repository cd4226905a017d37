/-!
# Computations that succeed or fail

What the success of a sequence of steps says about each of them, and where its errors come from.
-/

namespace LanguageSpec

variable {ε σ α β : Type}

theorem bind_eq_ok_iff {x : Except ε α} {f : α → Except ε β} {b : β} :
    x >>= f = .ok b ↔ ∃ a, x = .ok a ∧ f a = .ok b := by
  cases x with
  | error e => simp [bind, Except.bind]
  | ok a => simp [bind, Except.bind]

theorem ok_bind (a : α) (f : α → Except ε β) : (.ok a >>= f) = f a := rfl

theorem error_bind (e : ε) (f : α → Except ε β) : (.error e >>= f) = .error e := rfl

theorem exists_eq_ok_of_isOk {x : Except ε α} (h : x.isOk = true) : ∃ a, x = .ok a := by
  cases x with
  | error e => cases h
  | ok a => exact ⟨a, rfl⟩

theorem toOption_eq_some_iff {x : Except ε α} {a : α} : x.toOption = some a ↔ x = .ok a := by
  cases x <;> simp [Except.toOption]

section Fold

variable {step : σ → α → Except ε σ} {s s' : σ}

theorem foldlM_nil_eq_ok_iff : [].foldlM step s = .ok s' ↔ s = s' := by
  simp [pure, Except.pure]

theorem foldlM_cons_eq_ok_iff {a : α} {l : List α} :
    (a :: l).foldlM step s = .ok s' ↔ ∃ r, step s a = .ok r ∧ l.foldlM step r = .ok s' := by
  rw [List.foldlM_cons, bind_eq_ok_iff]

theorem foldlM_append_eq_ok_iff {l m : List α} :
    (l ++ m).foldlM step s = .ok s' ↔ ∃ r, l.foldlM step s = .ok r ∧ m.foldlM step r = .ok s' := by
  rw [List.foldlM_append, bind_eq_ok_iff]

/-- What a step keeps, a run of steps keeps. -/
theorem foldlM_induction {P : List α → σ → Prop} (hnil : P [] s)
    (hstep : ∀ l s a s', P l s → step s a = .ok s' → P (l ++ [a]) s') {l : List α}
    (h : l.foldlM step s = .ok s') : P l s' := by
  suffices hgen : ∀ m t, P m t → ∀ s', l.foldlM step t = .ok s' → P (m ++ l) s' from
    hgen [] s hnil s' h
  clear h
  induction l with
  | nil =>
      intro m t hm s' h
      rw [foldlM_nil_eq_ok_iff] at h
      simpa [← h] using hm
  | cons a l ih =>
      intro m t hm s' h
      obtain ⟨r, hr, h⟩ := foldlM_cons_eq_ok_iff.mp h
      simpa using ih (m ++ [a]) r (hstep m t a r hm hr) s' h

/-- Steps that succeed as long as an invariant holds, and keep it. -/
theorem foldlM_eq_ok {next : σ → α → σ} {P : σ → Prop} {l : List α}
    (h : ∀ s a, a ∈ l → P s → step s a = .ok (next s a) ∧ P (next s a)) (hs : P s) :
    l.foldlM step s = .ok (l.foldl next s) ∧ P (l.foldl next s) := by
  induction l generalizing s with
  | nil => exact ⟨rfl, hs⟩
  | cons a l ih =>
      obtain ⟨hstep, hnext⟩ := h s a List.mem_cons_self hs
      rw [List.foldlM_cons, hstep]
      exact ih (fun t b hb ht => h t b (List.mem_cons_of_mem a hb) ht) hnext

/-- An error ends a run of steps, whatever would come behind it. -/
theorem foldlM_append_of_error {e : ε} {l : List α} (h : l.foldlM step s = .error e) (m : List α) :
    (l ++ m).foldlM step s = .error e := by
  rw [List.foldlM_append, h]
  rfl

/-- A run of steps that fails has a first step that fails. -/
theorem exists_of_foldlM_eq_error {e : ε} {l : List α} (h : l.foldlM step s = .error e) :
    ∃ front a back r,
      l = front ++ a :: back ∧ front.foldlM step s = .ok r ∧ step r a = .error e := by
  induction l generalizing s with
  | nil => cases h
  | cons a l ih =>
      cases ha : step s a with
      | error e' =>
          rw [List.foldlM_cons, ha] at h
          cases h
          exact ⟨[], a, l, s, rfl, rfl, ha⟩
      | ok r =>
          rw [List.foldlM_cons, ha] at h
          obtain ⟨front, b, back, t, rfl, hfront, hb⟩ := ih h
          refine ⟨a :: front, b, back, t, rfl, ?_, hb⟩
          exact foldlM_cons_eq_ok_iff.mpr ⟨r, ha, hfront⟩

theorem foldlM_flatMap {f : β → List α} {l : List β} :
    (l.flatMap f).foldlM step s = l.foldlM (fun s b => (f b).foldlM step s) s := by
  induction l generalizing s with
  | nil => rfl
  | cons b l ih => simp only [List.flatMap_cons, List.foldlM_append, List.foldlM_cons, ih]

theorem foldlM_congr {step' : σ → α → Except ε σ} {l : List α}
    (h : ∀ s, ∀ a ∈ l, step s a = step' s a) : l.foldlM step s = l.foldlM step' s := by
  induction l generalizing s with
  | nil => rfl
  | cons a l ih =>
      rw [List.foldlM_cons, List.foldlM_cons, h s a List.mem_cons_self]
      exact congrArg _ (funext fun _ => ih fun t b hb => h t b (List.mem_cons_of_mem a hb))

end Fold

theorem mapM_eq_ok {f : α → Except ε β} {g : α → β} {l : List α} (h : ∀ a ∈ l, f a = .ok (g a)) :
    l.mapM f = .ok (l.map g) := by
  induction l with
  | nil => rfl
  | cons a l ih =>
      obtain ⟨ha, hl⟩ := List.forall_mem_cons.mp h
      rw [List.mapM_cons, ha, ih hl]
      rfl

/-! ## Errors -/

/-- All errors that a computation can end with have a property. -/
def FailsWith (P : ε → Prop) (x : Except ε α) : Prop := ∀ e, x = .error e → P e

section FailsWith

variable {P : ε → Prop}

@[simp] theorem failsWith_ok (a : α) : FailsWith P (.ok a : Except ε α) := nofun

@[simp] theorem failsWith_error_iff {e : ε} :
    FailsWith P (.error e : Except ε α) ↔ P e := by
  constructor
  · exact fun h => h e rfl
  · rintro h _ ⟨⟩
    exact h

theorem FailsWith.bind_of_ok {x : Except ε α} {f : α → Except ε β} (hx : FailsWith P x)
    (hf : ∀ a, x = .ok a → FailsWith P (f a)) : FailsWith P (x >>= f) := by
  cases x with
  | error e => exact failsWith_error_iff.mpr (hx e rfl)
  | ok a => exact hf a rfl

theorem FailsWith.bind {x : Except ε α} {f : α → Except ε β} (hx : FailsWith P x)
    (hf : ∀ a, FailsWith P (f a)) : FailsWith P (x >>= f) :=
  hx.bind_of_ok fun a _ => hf a

theorem FailsWith.mapM {f : α → Except ε β} {l : List α} (h : ∀ a ∈ l, FailsWith P (f a)) :
    FailsWith P (l.mapM f) := by
  induction l with
  | nil => exact failsWith_ok []
  | cons a l ih =>
      obtain ⟨ha, hl⟩ := List.forall_mem_cons.mp h
      rw [List.mapM_cons]
      exact ha.bind fun b => (ih hl).bind fun bs => failsWith_ok (b :: bs)

/-- Where all steps keep an invariant, their errors need a property only under it. -/
theorem FailsWith.foldlM_of_invariant {Q : σ → Prop} {step : σ → α → Except ε σ} {l : List α}
    (hstep : ∀ s, Q s → ∀ a ∈ l, FailsWith P (step s a) ∧ ∀ s', step s a = .ok s' → Q s') {s : σ}
    (hs : Q s) : FailsWith P (l.foldlM step s) := by
  induction l generalizing s with
  | nil => exact failsWith_ok s
  | cons a l ih =>
      obtain ⟨hfails, hkeeps⟩ := hstep s hs a List.mem_cons_self
      rw [List.foldlM_cons]
      refine hfails.bind_of_ok fun s' hs' => ih (fun t ht b hb => ?_) (hkeeps s' hs')
      exact hstep t ht b (List.mem_cons_of_mem a hb)

theorem FailsWith.foldlM {step : σ → α → Except ε σ} (hstep : ∀ s a, FailsWith P (step s a))
    (l : List α) (s : σ) : FailsWith P (l.foldlM step s) :=
  foldlM_of_invariant (fun s _ a _ => ⟨hstep s a, fun _ _ => trivial⟩) (Q := fun _ => True) trivial

end FailsWith

end LanguageSpec
