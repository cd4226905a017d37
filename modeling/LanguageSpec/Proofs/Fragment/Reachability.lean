import LanguageSpec.Proofs.Fragment.Invariant

/-!
# The states of fragments

All states of a fragment are reached from the start state, and from each of them a tail is reached:
the end of the current branch or of a closed one. A finalized fragment has one tail, its accept
state.
-/

open Relation (ReflTransGen)

namespace LanguageSpec.Fragment

/-- An edge leads from one state to the other. -/
def Next (rows : List (List Edge)) (p q : Nat) : Prop := ∃ e ∈ edgesAt rows p, e.target = q

/-- Edges lead from one state to the other, none of them if it is the same. -/
def Reach (rows : List (List Edge)) : Nat → Nat → Prop := ReflTransGen (Next rows)

/-! ## Rows -/

section Rows

variable {rows rows' : List (List Edge)} {p q s t : Nat}

theorem Reach.of_edge {e : Edge} (he : e ∈ edgesAt rows p) : Reach rows p e.target :=
  .single ⟨e, he, rfl⟩

theorem Reach.mono (hsub : ∀ s, ∀ e ∈ edgesAt rows s, e ∈ edgesAt rows' s) (h : Reach rows p q) :
    Reach rows' p q := by
  refine ReflTransGen.mono ?_ _ _ h
  rintro s _ ⟨e, he, rfl⟩
  exact ⟨e, hsub s e he, rfl⟩

theorem Reach.link (h : Reach rows p q) : Reach (link rows s t) p q :=
  h.mono fun _ _ => mem_edgesAt_link_of_mem

theorem reach_link_self (hs : s < rows.length) : Reach (link rows s t) s t :=
  .of_edge (e := ⟨none, t⟩) ((mem_edgesAt_link hs s _).mpr (.inr ⟨rfl, rfl⟩))

theorem Reach.beside (h : Reach rows p q) : Reach (beside rows rows') p q :=
  h.mono fun _ _ he => mem_edgesAt_beside.mpr (.inl he)

/-- What is reached in the rows behind others is reached there with all states moved. -/
theorem Reach.beside_add (h : Reach rows' p q) :
    Reach (Fragment.beside rows rows') (rows.length + p) (rows.length + q) := by
  refine ReflTransGen.lift (rows.length + ·) ?_ _ _ h
  rintro s _ ⟨e, he, rfl⟩
  exact ⟨e.shift rows.length, mem_edgesAt_beside.mpr (.inr ⟨s, e, he, rfl, rfl⟩), rfl⟩

end Rows

/-! ## Tails -/

/-- The ends of all branches. -/
def tails (f : Fragment) : List Nat := f.closed ++ [f.tail]

/-- Every state is reached from the start state and reaches an end of a branch. The accept state, if
there is one, is the only end. -/
structure Live (f : Fragment) : Prop where
  tails_lt : ∀ t ∈ f.tails, t < f.size
  tails_of_accept : ∀ a, f.accept = some a → f.tails = [a]
  reached : ∀ s < f.size, Reach f.states 0 s
  leads : ∀ s < f.size, ∃ t ∈ f.tails, Reach f.states s t

variable {f g k : Fragment}

theorem tail_mem_tails (f : Fragment) : f.tail ∈ f.tails := List.mem_concat_self

theorem mem_tails_iff {t : Nat} : t ∈ f.tails ↔ t ∈ f.closed ∨ t = f.tail := by
  simp [tails]

namespace Live

theorem tail_lt (h : Live f) : f.tail < f.size := h.tails_lt _ f.tail_mem_tails

theorem size_pos (h : Live f) : 0 < f.size := Nat.zero_lt_of_lt h.tail_lt

theorem leads_of_accept (h : Live f) {a s : Nat} (ha : f.accept = some a) (hs : s < f.size) :
    Reach f.states s a := by
  obtain ⟨t, ht, hreach⟩ := h.leads s hs
  rw [h.tails_of_accept a ha] at ht
  rwa [List.mem_singleton.mp ht] at hreach

theorem accept_lt (h : Live f) {a : Nat} (ha : f.accept = some a) : a < f.size := by
  apply h.tails_lt
  rw [h.tails_of_accept a ha]
  exact List.mem_singleton_self a

theorem new : Live new := by
  refine ⟨?_, nofun, ?_, ?_⟩
  · simp [tails, Fragment.new, size]
  · intro s hs
    obtain rfl := Nat.lt_one_iff.mp hs
    exact .refl
  · intro s hs
    obtain rfl := Nat.lt_one_iff.mp hs
    exact ⟨0, List.mem_singleton_self 0, .refl⟩

theorem withLink (h : Live f) (s t : Nat) : Live (f.withLink s t) := by
  refine ⟨?_, h.tails_of_accept, ?_, ?_⟩
  · rw [size_withLink]
    exact h.tails_lt
  · intro p hp
    rw [size_withLink] at hp
    exact (h.reached p hp).link
  · intro p hp
    rw [size_withLink] at hp
    obtain ⟨q, hq, hreach⟩ := h.leads p hp
    exact ⟨q, hq, hreach.link⟩

theorem finalize (h : Live f) : Live f.finalize := by
  cases hf : f.accept with
  | some a =>
      rwa [finalize_of_isFinalized (isFinalized_of_accept hf)]
  | none =>
      have hedges := @mem_edgesAt_finalize f hf h.tails_lt
      have hsize := size_finalize_of_accept hf
      have htails : f.finalize.tails = [f.size] := by
        rw [finalize_of_accept hf, tails, List.nil_append]
      have hold : ∀ {p q}, Reach f.states p q → Reach f.finalize.states p q := fun hreach =>
        hreach.beside.mono fun p e he => hedges.mpr (.inl he)
      have hend : ∀ t ∈ f.tails, Reach f.finalize.states t f.size := fun t ht =>
        .of_edge (e := ⟨none, f.size⟩) (hedges.mpr (.inr ⟨ht, rfl⟩))
      refine ⟨?_, ?_, ?_, ?_⟩
      · rw [htails, hsize]
        simp
      · intro a ha
        rw [accept_finalize, exit, hf, Option.getD_none] at ha
        rw [htails, Option.some.inj ha]
      · intro s hs
        rw [hsize] at hs
        rcases Nat.lt_succ_iff_lt_or_eq.mp hs with hs | rfl
        · exact hold (h.reached s hs)
        · exact (hold (h.reached f.tail h.tail_lt)).trans (hend f.tail f.tail_mem_tails)
      · intro s hs
        rw [hsize] at hs
        refine ⟨f.size, by simp [htails], ?_⟩
        rcases Nat.lt_succ_iff_lt_or_eq.mp hs with hs | rfl
        · obtain ⟨t, ht, hreach⟩ := h.leads s hs
          exact (hold hreach).trans (hend t ht)
        · exact .refl

theorem append (hf : Live f) (hg : Live g.finalize) (hk : f.append? g = some k) : Live k := by
  have hexit : g.exit < g.finalize.size := hg.accept_lt g.accept_finalize
  obtain rfl := eq_of_append? hk
  -- states keep their places, and those of the copy come behind them, entered from the tail
  have hold : ∀ {p q}, Reach f.states p q →
      Reach (splice f.states g.finalize.states f.tail) p q := fun hreach => hreach.beside.link
  have hcopy : ∀ {p q}, Reach g.finalize.states p q →
      Reach (splice f.states g.finalize.states f.tail) (f.size + p) (f.size + q) :=
    fun hreach => hreach.beside_add.link
  have henter : Reach (splice f.states g.finalize.states f.tail) f.tail (f.size + 0) := by
    apply reach_link_self
    rw [length_beside]
    exact Nat.lt_add_right _ hf.tail_lt
  refine ⟨?_, nofun, ?_, ?_⟩
  · intro t ht
    rw [size, length_splice]
    rcases mem_tails_iff.mp ht with ht | rfl
    · exact Nat.lt_add_right _ (hf.tails_lt t (mem_tails_iff.mpr (.inl ht)))
    · exact Nat.add_lt_add_left hexit f.size
  · intro s hs
    rw [size, length_splice] at hs
    rcases Nat.lt_or_ge s f.size with hold' | hnew
    · exact hold (hf.reached s hold')
    · obtain ⟨i, rfl⟩ := Nat.exists_eq_add_of_le hnew
      have hi : i < g.finalize.size := Nat.lt_of_add_lt_add_left hs
      exact (hold (hf.reached f.tail hf.tail_lt)).trans (henter.trans (hcopy (hg.reached i hi)))
  · intro s hs
    rw [size, length_splice] at hs
    rcases Nat.lt_or_ge s f.size with hold' | hnew
    · obtain ⟨t, ht, hreach⟩ := hf.leads s hold'
      rcases mem_tails_iff.mp ht with hclosed | rfl
      · exact ⟨t, mem_tails_iff.mpr (.inl hclosed), hold hreach⟩
      · refine ⟨f.size + g.exit, mem_tails_iff.mpr (.inr rfl), ?_⟩
        exact (hold hreach).trans (henter.trans (hcopy (hg.reached g.exit hexit)))
    · obtain ⟨i, rfl⟩ := Nat.exists_eq_add_of_le hnew
      have hi : i < g.finalize.size := Nat.lt_of_add_lt_add_left hs
      refine ⟨f.size + g.exit, mem_tails_iff.mpr (.inr rfl), ?_⟩
      exact hcopy (hg.leads_of_accept g.accept_finalize hi)

theorem alternate (h : Live f) (hk : f.alternate? = some k) : Live k := by
  have hopen := accept_of_alternate? hk
  obtain rfl := eq_of_alternate? hk
  refine ⟨?_, ?_, h.reached, ?_⟩
  · intro t ht
    rcases mem_tails_iff.mp ht with ht | rfl
    · exact h.tails_lt t ht
    · exact h.size_pos
  · intro a ha
    rw [hopen] at ha
    cases ha
  · intro s hs
    obtain ⟨t, ht, hreach⟩ := h.leads s hs
    exact ⟨t, List.mem_append_left _ ht, hreach⟩

end Live

/-- All operations keep all states alive. -/
theorem invariant_live : Invariant Live where
  new := .new
  mark _ h := ⟨h.tails_lt, h.tails_of_accept, h.reached, h.leads⟩
  withLink s t h := h.withLink s t
  finalize h := h.finalize
  appendFinalized hf hg hk := hf.append hg hk
  alternate h hk := h.alternate hk

theorem live_ofSet {s : CharSet} (hs : {c | c ∈ s}.Nonempty) : Live (ofSet s) := by
  obtain ⟨c, hc⟩ := hs
  have hedge : (⟨some c, 1⟩ : Edge) ∈ edgesAt (ofSet s).states 0 := by
    rw [edgesAt_ofSet_zero]
    exact List.mem_map_of_mem hc
  have hreach : Reach (ofSet s).states 0 1 := .of_edge hedge
  have hcases : ∀ p < (ofSet s).size, p = 0 ∨ p = 1 := by
    intro p hp
    have hlt : p < 2 := hp
    omega
  refine ⟨?_, ?_, ?_, ?_⟩
  · simp [tails, ofSet, size]
  · rintro _ ⟨⟩
    rfl
  · intro p hp
    rcases hcases p hp with rfl | rfl
    · exact .refl
    · exact hreach
  · intro p hp
    refine ⟨1, List.mem_singleton_self 1, ?_⟩
    rcases hcases p hp with rfl | rfl
    · exact hreach
    · exact .refl

end LanguageSpec.Fragment
