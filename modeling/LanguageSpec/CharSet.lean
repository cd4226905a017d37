import LanguageSpec.SortedSet

/-!
# Character sets

Sets of characters, the printable alphabet of regular expressions, and the bracket form in which a
set is written: maximal runs of consecutive code points as ranges, with the five characters that
have a meaning between brackets escaped.
-/

namespace LanguageSpec

abbrev CharSet := SortedSet Char

namespace CharSet

/-- The alphabet: the space and the visible ASCII characters. -/
def inAlphabet (c : Char) : Bool := 0x20 ≤ c.toNat && c.toNat ≤ 0x7e

/-- Characters that a dot does not stand for. -/
def reserved : List Char :=
  ['\\', '*', '+', '?', '|', '[', ']', '(', ')', '.', '\'', '"']

/-- Characters that must be escaped between brackets. -/
def bracketEscaped : List Char := ['-', '[', '\\', ']', '^']

/-- The character of a code point, if the code point has one. -/
def scalar? (n : Nat) : Option Char :=
  if n.isValidChar then some (Char.ofNat n) else none

/-- The characters from `lo` to `hi` in ascending order. -/
def interval (lo hi : Char) : List Char :=
  (List.range' lo.toNat (hi.toNat + 1 - lo.toNat)).filterMap scalar?

theorem mem_interval {c lo hi : Char} : c ∈ interval lo hi ↔ lo ≤ c ∧ c ≤ hi := by
  have toNat (a b : Char) : a ≤ b ↔ a.toNat ≤ b.toNat := UInt32.le_iff_toNat_le
  rw [toNat, toNat, interval, List.mem_filterMap]
  constructor
  · rintro ⟨n, hn, h⟩
    rw [List.mem_range'_1] at hn
    unfold scalar? at h
    split at h
    · rename_i valid
      obtain rfl := Option.some.inj h
      have same : (Char.ofNat n).toNat = n := by
        rw [Char.ofNat, dif_pos valid]
        rfl
      omega
    · simp at h
  · intro h
    refine ⟨c.toNat, List.mem_range'_1.mpr (by omega), ?_⟩
    have valid : c.toNat.isValidChar := c.valid
    rw [scalar?, if_pos valid, Char.ofNat_toNat]

/-- The set that a dot stands for. -/
def dot : CharSet :=
  SortedSet.ofList ((interval ' ' '~').filter fun c => !reserved.contains c)

/-- Adds a range. There is no range from a larger to a smaller character. -/
def insertRange? (s : CharSet) (lo hi : Char) : Option CharSet :=
  if lo ≤ hi then some (s.insertAll (interval lo hi)) else none

/-! ## Bracket form -/

/-- The maximal runs of consecutive code points of an ascending list, each with its ends. -/
def runs : List Char → List (Char × Char)
  | [] => []
  | c :: cs =>
    match runs cs with
    | [] => [(c, c)]
    | (lo, hi) :: rest =>
      if lo.toNat = c.toNat + 1 then (c, hi) :: rest else (c, c) :: (lo, hi) :: rest

def bracketChar (c : Char) : List Char :=
  if bracketEscaped.contains c then ['\\', c] else [c]

def runChars (r : Char × Char) : List Char :=
  if r.1 = r.2 then bracketChar r.1 else bracketChar r.1 ++ '-' :: bracketChar r.2

def text (s : CharSet) : String :=
  String.ofList ('[' :: (runs s.toList).flatMap runChars ++ [']'])

end CharSet

end LanguageSpec
