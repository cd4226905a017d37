import LanguageSpec.Proofs.Fragment.Path

/-!
# The language of a fragment

A fragment under construction stands for closed branches and a current one, whose last atom can
still be repeated. Every operation on fragments is an operation on these languages. What makes
repetition sound is that all ways between the ends of an atom repeat the atom.
-/

open Computability

namespace LanguageSpec

/-- The languages that a fragment is made of: the union of the closed branches, and the current
branch without its last atom and with it. -/
structure Branches where
  closed : Language Char
  front : Language Char
  last : Option (Language Char)

namespace Branches

def new : Branches := ⟨0, 1, none⟩

def current (b : Branches) : Language Char := b.front * b.last.getD 1

def whole (b : Branches) : Language Char := b.closed + b.current

def append (b : Branches) (l : Language Char) : Branches := ⟨b.closed, b.current, some l⟩

def alternate (b : Branches) : Branches := ⟨b.whole, 1, none⟩

def starLast (b : Branches) : Branches := { b with last := b.last.map fun l => l∗ }

def plusLast (b : Branches) : Branches := { b with last := b.last.map fun l => l * l∗ }

def single (l : Language Char) : Branches := ⟨0, 1, some l⟩

@[simp] theorem current_append (b : Branches) (l : Language Char) :
    (b.append l).current = b.current * l := rfl

@[simp] theorem closed_append (b : Branches) (l : Language Char) :
    (b.append l).closed = b.closed := rfl

@[simp] theorem current_alternate (b : Branches) : b.alternate.current = 1 := mul_one 1

@[simp] theorem closed_alternate (b : Branches) : b.alternate.closed = b.whole := rfl

@[simp] theorem whole_single (l : Language Char) : (single l).whole = l := by
  simp [single, whole, current]

end Branches

namespace Fragment

/-! ## Atoms that can be repeated -/

/-- Whatever leads from one end of an atom to an end of it consists of repetitions of the atom. -/
structure Repeatable (rows : List (List Edge)) (e x : Nat) : Prop where
  entry : between rows e e ≤ (between rows e x)∗
  back : between rows x e ≤ (between rows e x)∗
  exit : between rows x x ≤ (between rows e x)∗

namespace Repeatable

variable {rows : List (List Edge)} {e x s t p q : Nat}

theorem le_kstar (h : Repeatable rows e x) (hp : p = e ∨ p = x) (hq : q = e ∨ q = x) :
    between rows p q ≤ (between rows e x)∗ := by
  rcases hp with rfl | rfl <;> rcases hq with rfl | rfl
  · exact h.entry
  · exact le_kstar
  · exact h.back
  · exact h.exit

theorem link_le_kstar (h : Repeatable rows e x) (hs : s = e ∨ s = x) (ht : t = e ∨ t = x)
    (hlt : s < rows.length) (hp : p = e ∨ p = x) (hq : q = e ∨ q = x) :
    between (link rows s t) p q ≤ (between rows e x)∗ := by
  rw [between_link hlt]
  refine add_le (h.le_kstar hp hq) ?_
  calc rounds rows s t p q
      ≤ (between rows e x)∗ * (between rows e x)∗∗ * (between rows e x)∗ := by
        unfold rounds
        gcongr
        · exact h.le_kstar hp hs
        · exact h.le_kstar ht hs
        · exact h.le_kstar ht hq
    _ = (between rows e x)∗ := by simp only [kstar_idem, kstar_mul_kstar]

theorem link (h : Repeatable rows e x) (hs : s = e ∨ s = x) (ht : t = e ∨ t = x)
    (hlt : s < rows.length) : Repeatable (link rows s t) e x := by
  have hle : ∀ {p q}, p = e ∨ p = x → q = e ∨ q = x →
      between (Fragment.link rows s t) p q ≤ (between (Fragment.link rows s t) e x)∗ :=
    fun hp hq => (h.link_le_kstar hs ht hlt hp hq).trans (kstar_mono (between_le_link hlt e x))
  exact ⟨hle (.inl rfl) (.inl rfl), hle (.inr rfl) (.inl rfl), hle (.inr rfl) (.inr rfl)⟩

end Repeatable

theorem between_link_back {rows : List (List Edge)} {e x : Nat} (hx : x < rows.length) :
    between (link rows x e) e x = between rows e x * (between rows e x)∗ := by
  rw [between_link hx, rounds, mul_assoc, ← mul_one_add, one_add_kstar_mul]

theorem between_link_past_back {rows : List (List Edge)} {e x : Nat} (h : Repeatable rows e x)
    (he : e < rows.length) (hx : x < rows.length) :
    between (link (link rows e x) x e) e x = (between rows e x)∗ := by
  have hone : 1 ≤ between (link rows e x) e x := one_le_between_link he
  have hle : between (link rows e x) e x ≤ (between rows e x)∗ :=
    h.link_le_kstar (.inl rfl) (.inr rfl) he (.inl rfl) (.inr rfl)
  rw [between_link_back (by rwa [length_link])]
  apply le_antisymm
  · calc between (link rows e x) e x * (between (link rows e x) e x)∗
        ≤ (between rows e x)∗ * (between rows e x)∗∗ := by gcongr
      _ = (between rows e x)∗ := by simp only [kstar_idem, kstar_mul_kstar]
  · calc (between rows e x)∗ ≤ (between (link rows e x) e x)∗ :=
          kstar_mono (between_le_link he e x)
      _ ≤ between (link rows e x) e x * (between (link rows e x) e x)∗ :=
          le_mul_of_one_le_left' hone

/-- All ways from the start to the ends of an atom enter it at `e`, with `front` read. -/
def EnteredBy (rows : List (List Edge)) (front : Language Char) (e x : Nat) : Prop :=
  ∀ q, q = e ∨ q = x → between rows 0 q = front * between rows e q

/-- If what leads to the source of a new edge enters at `e`, so does what leads on over the edge. -/
theorem between_link_of_entered {rows : List (List Edge)} {front l : Language Char}
    {s t e q y : Nat} (hs : s < rows.length) (hfs : between rows 0 s = front * between rows e s)
    (hq : between rows 0 q = l + front * between rows e y)
    (hy : between rows t q = between rows t y) :
    between (link rows s t) 0 q = l + front * between (link rows s t) e y := by
  rw [between_link hs, between_link hs, rounds, rounds, hfs, hq, hy]
  simp only [mul_add, mul_assoc, add_assoc]

theorem EnteredBy.link {rows : List (List Edge)} {front : Language Char} {e x s t : Nat}
    (h : EnteredBy rows front e x) (hs : s = e ∨ s = x) (hlt : s < rows.length) :
    EnteredBy (link rows s t) front e x := by
  intro q hq
  have hkey := between_link_of_entered (l := 0) (t := t) hlt (h s hs)
    (by rw [h q hq, zero_add]) (rfl : between rows t q = between rows t q)
  rwa [zero_add] at hkey

/-- The last atom of a branch lies between `e` and `x`. -/
structure LastAtom (rows : List (List Edge)) (b : Branches) (e x : Nat) : Prop where
  entry_lt : e < rows.length
  exit_lt : x < rows.length
  language : b.last = some (between rows e x)
  repeatable : Repeatable rows e x
  entered : EnteredBy rows b.front e x

namespace LastAtom

variable {rows : List (List Edge)} {b : Branches} {e x : Nat}

theorem plus (h : LastAtom rows b e x) : LastAtom (link rows x e) b.plusLast e x where
  entry_lt := by rw [length_link]; exact h.entry_lt
  exit_lt := by rw [length_link]; exact h.exit_lt
  language := by rw [Branches.plusLast, h.language, between_link_back h.exit_lt, Option.map_some]
  repeatable := h.repeatable.link (.inr rfl) (.inl rfl) h.exit_lt
  entered := h.entered.link (.inr rfl) h.exit_lt

theorem star (h : LastAtom rows b e x) :
    LastAtom (link (link rows e x) x e) b.starLast e x where
  entry_lt := by rw [length_link, length_link]; exact h.entry_lt
  exit_lt := by rw [length_link, length_link]; exact h.exit_lt
  language := by
    rw [Branches.starLast, h.language, between_link_past_back h.repeatable h.entry_lt h.exit_lt,
      Option.map_some]
  repeatable :=
    (h.repeatable.link (.inl rfl) (.inr rfl) h.entry_lt).link (.inr rfl) (.inl rfl)
      (by rw [length_link]; exact h.exit_lt)
  entered :=
    (h.entered.link (.inl rfl) h.entry_lt).link (.inr rfl) (by rw [length_link]; exact h.exit_lt)

/-- An atom keeps its place where the words between its ends and from the start stay the same. -/
theorem congr {rows' : List (List Edge)} (h : LastAtom rows b e x)
    (hlen : rows.length ≤ rows'.length)
    (hsame : ∀ p q, p = 0 ∨ p = e ∨ p = x → q = e ∨ q = x → between rows' p q = between rows p q) :
    LastAtom rows' b e x where
  entry_lt := Nat.lt_of_lt_of_le h.entry_lt hlen
  exit_lt := Nat.lt_of_lt_of_le h.exit_lt hlen
  language := by rw [hsame e x (.inr (.inl rfl)) (.inr rfl), h.language]
  repeatable := by
    have hex := hsame e x (.inr (.inl rfl)) (.inr rfl)
    refine ⟨?_, ?_, ?_⟩
    · rw [hsame e e (.inr (.inl rfl)) (.inl rfl), hex]
      exact h.repeatable.entry
    · rw [hsame x e (.inr (.inr rfl)) (.inl rfl), hex]
      exact h.repeatable.back
    · rw [hsame x x (.inr (.inr rfl)) (.inr rfl), hex]
      exact h.repeatable.exit
  entered := by
    intro q hq
    rw [hsame 0 q (.inl rfl) hq, hsame e q (.inr (.inl rfl)) hq]
    exact h.entered q hq

end LastAtom

/-! ## Fragments that stand for languages -/

/-- A fragment that can still be appended to, with its branches. Its last atom ends at the tail, and
from there nothing leads to the tails of closed branches. -/
structure Unfinished (f : Fragment) (b : Branches) : Prop where
  accept : f.accept = none
  size_pos : 0 < f.size
  inRange : InRange f.states
  start : ∀ s, ∀ e ∈ edgesAt f.states s, e.target ≠ 0
  tail_lt : f.tail < f.size
  closed_lt : ∀ c ∈ f.closed, c < f.size
  closed : (f.closed.map (between f.states 0)).sum = b.closed
  current : between f.states 0 f.tail = b.current
  noLast : f.last = none → b.last = none
  last : ∀ e x, f.last = some (e, x) → LastAtom f.states b e x
  last_eq_tail : ∀ e x, f.last = some (e, x) → x = f.tail
  last_ne_zero : ∀ e x, f.last = some (e, x) → ∀ p, p = e ∨ p = x → p ≠ 0
  last_apart : ∀ e x, f.last = some (e, x) → ∀ p, p = e ∨ p = x →
    ∀ c ∈ f.closed, between f.states p c = 0

/-- A fragment with an accept state, which as an atom can be repeated. Its last atom is all of it or
apart from both its ends. -/
structure Finished (f : Fragment) (b : Branches) : Prop where
  accept : f.accept = some f.exit
  exit_lt : f.exit < f.size
  inRange : InRange f.states
  whole : between f.states 0 f.exit = b.whole
  ends : Repeatable f.states 0 f.exit
  noLast : f.last = none → b.last = none
  last : ∀ e x, f.last = some (e, x) → LastAtom f.states b e x
  last_exit : ∀ e x, f.last = some (e, x) → ∀ p, p = e ∨ p = x →
    between f.states p f.exit = between f.states p x
  last_apart : ∀ e x, f.last = some (e, x) → (e = 0 ∧ x = f.exit) ∨
    ∀ p, p = e ∨ p = x → between f.states p 0 = 0 ∧ between f.states f.exit p = 0

/-- The words that lead from the start state to the accept state. -/
def language (f : Fragment) : Language Char :=
  {w | ∃ a, f.accept = some a ∧ Path f.states f.start w a}

theorem Finished.language_eq {f : Fragment} {b : Branches} (h : Finished f b) :
    f.language = b.whole := by
  rw [← h.whole]
  ext w
  constructor
  · rintro ⟨a, ha, hw⟩
    obtain rfl := Option.some.inj (h.accept.symm.trans ha)
    exact hw
  · intro hw
    exact ⟨f.exit, h.accept, hw⟩

theorem unfinished_new : Unfinished new Branches.new := by
  have hedges : ∀ s, edgesAt new.states s = [] := by
    intro s
    rcases s with _ | s <;> rfl
  have hlast : ∀ e x, new.last ≠ some (e, x) := by simp [new]
  refine ⟨rfl, Nat.one_pos, ?_, ?_, Nat.one_pos, by simp [new], rfl, ?_, fun _ => rfl, ?_, ?_, ?_,
    ?_⟩
  · intro s e he
    simp [hedges] at he
  · intro s e he
    simp [hedges] at he
  · rw [between_of_edgesAt_eq_nil (hedges 0)]
    exact (mul_one 1).symm
  all_goals exact fun e x h => absurd h (hlast e x)

/-! ### Finalizing -/

@[simp] theorem exit_finalize (f : Fragment) : f.finalize.exit = f.exit := by
  rw [exit, accept_finalize, Option.getD_some]

theorem isFinalized_of_accept {f : Fragment} {a : Nat} (h : f.accept = some a) :
    f.isFinalized = true := by
  rw [isFinalized, h, Option.isSome_some]

@[simp] theorem finalize_finalize (f : Fragment) : f.finalize.finalize = f.finalize :=
  finalize_of_isFinalized (isFinalized_of_accept f.accept_finalize)

theorem finalize_of_accept {f : Fragment} (h : f.accept = none) : f.finalize =
    { states := (f.closed ++ [f.tail]).foldl (fun s t => link s t f.size) (beside f.states [[]])
      tail := f.size
      closed := []
      last := f.last
      accept := some f.size } := by
  simp [finalize, isFinalized, h, beside]

section Join

variable {rows : List (List Edge)} {a : Nat}

theorem sum_map_eq_zero {ts : List Nat} {X : Nat → Language Char} (h : ∀ t ∈ ts, X t = 0) :
    (ts.map X).sum = 0 := by
  apply List.sum_eq_zero
  intro l hl
  obtain ⟨t, ht, rfl⟩ := List.mem_map.mp hl
  exact h t ht

theorem between_foldl_link (ts : List Nat) (hts : ∀ t ∈ ts, t < rows.length ∧ t ≠ a)
    (hsink : ∀ q, between rows a q = if a = q then 1 else 0) (p q : Nat) :
    between (ts.foldl (fun s t => link s t a) rows) p q =
      between rows p q + if q = a then (ts.map (between rows p)).sum else 0 := by
  induction ts generalizing rows with
  | nil => simp
  | cons t ts ih =>
      obtain ⟨htlt, hta⟩ := hts t List.mem_cons_self
      have hreturn : between rows a t = 0 := by rw [hsink, if_neg (Ne.symm hta)]
      have hlink : ∀ p q, between (link rows t a) p q =
          between rows p q + if q = a then between rows p t else 0 := by
        intro p q
        rw [between_link_of_no_return htlt hreturn, hsink]
        by_cases hq : q = a
        · rw [if_pos hq, if_pos hq.symm, mul_one]
        · rw [if_neg hq, if_neg (Ne.symm hq), mul_zero]
      have hsink' : ∀ q, between (link rows t a) a q = if a = q then 1 else 0 := by
        intro q
        rw [hlink, hsink, hreturn, ite_self, add_zero]
      have hrest : (ts.map (between (link rows t a) p)) = ts.map (between rows p) := by
        apply List.map_congr_left
        intro u hu
        rw [hlink, if_neg (hts u (List.mem_cons_of_mem t hu)).2, add_zero]
      rw [List.foldl_cons, ih (fun u hu => ?_) hsink', hlink, hrest]
      · by_cases hq : q = a
        · rw [if_pos hq, if_pos hq, if_pos hq, List.map_cons, List.sum_cons, add_assoc]
        · simp only [if_neg hq, add_zero]
      · rw [length_link]
        exact hts u (List.mem_cons_of_mem t hu)

theorem length_foldl_link (ts : List Nat) (rows : List (List Edge)) (a : Nat) :
    (ts.foldl (fun s t => link s t a) rows).length = rows.length := by
  induction ts generalizing rows with
  | nil => rfl
  | cons t ts ih => rw [List.foldl_cons, ih, length_link]

theorem InRange.foldl_link (ts : List Nat) (hts : ∀ t ∈ ts, t < rows.length)
    (ha : a < rows.length) (h : InRange rows) :
    InRange (ts.foldl (fun s t => Fragment.link s t a) rows) := by
  induction ts generalizing rows with
  | nil => exact h
  | cons t ts ih =>
      apply ih
      · intro u hu
        rw [length_link]
        exact hts u (List.mem_cons_of_mem t hu)
      · rwa [length_link]
      · exact h.link (hts t List.mem_cons_self) ha

end Join

theorem size_finalize_of_accept {f : Fragment} (h : f.accept = none) :
    f.finalize.size = f.size + 1 := by
  simp only [finalize_of_accept h, size, length_foldl_link, length_beside, List.length_singleton]

namespace Unfinished

variable {f : Fragment} {b : Branches}

theorem exit_eq (h : Unfinished f b) : f.exit = f.size := by
  simp [exit, h.accept]

theorem not_isFinalized (h : Unfinished f b) : f.isFinalized = false := by
  simp [isFinalized, h.accept]

theorem finalize_eq (h : Unfinished f b) : f.finalize =
    { states := (f.closed ++ [f.tail]).foldl (fun s t => link s t f.size) (beside f.states [[]])
      tail := f.size
      closed := []
      last := f.last
      accept := some f.size } :=
  finalize_of_accept h.accept

theorem last_finalize (h : Unfinished f b) : f.finalize.last = f.last := by
  rw [h.finalize_eq]

theorem size_finalize (h : Unfinished f b) : f.finalize.size = f.size + 1 :=
  size_finalize_of_accept h.accept

theorem tails_lt (h : Unfinished f b) : ∀ t ∈ f.closed ++ [f.tail], t < f.size := by
  intro t ht
  rcases List.mem_append.mp ht with ht | ht
  · exact h.closed_lt t ht
  · exact List.mem_singleton.mp ht ▸ h.tail_lt

theorem edgesAt_size (f : Fragment) : edgesAt (beside f.states [[]]) f.size = [] :=
  @edgesAt_beside_add f.states [[]] 0

theorem between_finalize (h : Unfinished f b) (p q : Nat) :
    between f.finalize.states p q = between (beside f.states [[]]) p q +
      if q = f.size then
        ((f.closed ++ [f.tail]).map (between (beside f.states [[]]) p)).sum
      else 0 := by
  rw [h.finalize_eq]
  refine between_foldl_link _ (fun t ht => ?_) (fun q => ?_) p q
  · have hlt := h.tails_lt t ht
    rw [length_beside]
    exact ⟨Nat.lt_add_right 1 hlt, Nat.ne_of_lt hlt⟩
  · exact between_of_edgesAt_eq_nil (edgesAt_size f) q

theorem between_finalize_of_lt (h : Unfinished f b) {p q : Nat} (hp : p < f.size)
    (hq : q < f.size) : between f.finalize.states p q = between f.states p q := by
  rw [h.between_finalize, if_neg (Nat.ne_of_lt hq), add_zero]
  exact between_beside_of_lt h.inRange hp hq

/-- What leads to the accept state is what leads to a tail. -/
theorem between_finalize_size (h : Unfinished f b) {p : Nat} (hp : p < f.size) :
    between f.finalize.states p f.size =
      (f.closed.map (between f.states p)).sum + between f.states p f.tail := by
  have hnone : between (beside f.states [[]]) p f.size = 0 :=
    between_beside_of_lt_of_le h.inRange hp (Nat.le_refl _)
  have htails : (f.closed ++ [f.tail]).map (between (beside f.states [[]]) p) =
      (f.closed ++ [f.tail]).map (between f.states p) :=
    List.map_congr_left fun t ht => between_beside_of_lt h.inRange hp (h.tails_lt t ht)
  rw [h.between_finalize, if_pos rfl, hnone, zero_add, htails, List.map_append, List.sum_append,
    List.map_singleton, List.sum_singleton]

theorem between_finalize_from_size (h : Unfinished f b) (q : Nat) :
    between f.finalize.states f.size q = if f.size = q then 1 else 0 := by
  have hout : ∀ q, between (beside f.states [[]]) f.size q = if f.size = q then 1 else 0 :=
    between_of_edgesAt_eq_nil (edgesAt_size f)
  have hnone : ((f.closed ++ [f.tail]).map (between (beside f.states [[]]) f.size)).sum = 0 :=
    sum_map_eq_zero fun t ht => by rw [hout, if_neg (Nat.ne_of_gt (h.tails_lt t ht))]
  rw [h.between_finalize, hout, hnone, ite_self, add_zero]

theorem between_finalize_start (h : Unfinished f b) {p : Nat} (hp : p < f.size) :
    between f.finalize.states p 0 = if p = 0 then 1 else 0 := by
  rw [h.between_finalize_of_lt hp h.size_pos]
  exact between_of_not_entered h.start p

theorem ends_finalize (h : Unfinished f b) : Repeatable f.finalize.states 0 f.size where
  entry := by
    rw [h.between_finalize_start h.size_pos, if_pos rfl]
    exact one_le_kstar
  back := by
    rw [h.between_finalize_from_size, if_neg (Nat.ne_of_gt h.size_pos)]
    exact bot_le
  exit := by
    rw [h.between_finalize_from_size, if_pos rfl]
    exact one_le_kstar

theorem inRange_finalize (h : Unfinished f b) : InRange f.finalize.states := by
  have hsingle : InRange [[]] := fun s e he => by
    rcases s with _ | s <;> simp [edgesAt] at he
  rw [h.finalize_eq]
  apply InRange.foldl_link
  · intro t ht
    rw [length_beside]
    exact Nat.lt_add_right 1 (h.tails_lt t ht)
  · rw [length_beside]
    exact Nat.lt_succ_self _
  · exact h.inRange.beside hsingle

/-- From the last atom the accept state is reached through its exit, which is the tail. -/
theorem last_exit_finalize (h : Unfinished f b) {e x p : Nat} (hex : f.last = some (e, x))
    (hp : p = e ∨ p = x) :
    between f.finalize.states p f.size = between f.finalize.states p x := by
  have hatom := h.last e x hex
  have hplt : p < f.size := by
    rcases hp with rfl | rfl
    · exact hatom.entry_lt
    · exact hatom.exit_lt
  rw [h.between_finalize_size hplt, h.between_finalize_of_lt hplt hatom.exit_lt,
    sum_map_eq_zero (h.last_apart e x hex p hp), zero_add, h.last_eq_tail e x hex]

theorem finished (h : Unfinished f b) : Finished f.finalize b := by
  have hlt : ∀ {e x p}, f.last = some (e, x) → p = 0 ∨ p = e ∨ p = x → p < f.size := by
    rintro e x p hex (rfl | rfl | rfl)
    · exact h.size_pos
    · exact (h.last _ _ hex).entry_lt
    · exact (h.last _ _ hex).exit_lt
  refine ⟨?_, ?_, h.inRange_finalize, ?_, ?_, ?_, ?_, ?_, ?_⟩
  · rw [accept_finalize, exit_finalize]
  · rw [exit_finalize, h.exit_eq, h.size_finalize]
    exact Nat.lt_succ_self _
  · rw [exit_finalize, h.exit_eq, h.between_finalize_size h.size_pos, h.closed, h.current,
      Branches.whole]
  · rw [exit_finalize, h.exit_eq]
    exact h.ends_finalize
  · rw [h.last_finalize]
    exact h.noLast
  · intro e x hex
    rw [h.last_finalize] at hex
    refine (h.last e x hex).congr ?_ fun p q hp hq =>
      h.between_finalize_of_lt (hlt hex hp) (hlt hex (.inr hq))
    exact (Nat.le_succ f.size).trans_eq h.size_finalize.symm
  · intro e x hex p hp
    rw [h.last_finalize] at hex
    rw [exit_finalize, h.exit_eq]
    exact h.last_exit_finalize hex hp
  · intro e x hex
    rw [h.last_finalize] at hex
    refine Or.inr fun p hp => ⟨?_, ?_⟩
    · rw [h.between_finalize_start (hlt hex (.inr hp)), if_neg (h.last_ne_zero e x hex p hp)]
    · rw [exit_finalize, h.exit_eq, h.between_finalize_from_size,
        if_neg (Nat.ne_of_gt (hlt hex (.inr hp)))]

end Unfinished

end Fragment

end LanguageSpec
