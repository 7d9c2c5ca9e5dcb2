import HermesShm.Base.Word
import Mathlib.Data.List.TakeWhile

/-! # Text

The strings and the string streams of the C++ library, as lists of characters. -/
namespace HermesShm.Base

abbrev Chars := List Char

/-! ## Strings -/

/-- `substr`, which throws where `pos` is past the end. -/
def substr (s : Chars) (pos n : ℕ) : Option Chars :=
  if pos ≤ s.length then some ((s.drop pos).take n) else none

/-- `find_last_of`. -/
def findLast (ch : Char) (s : Chars) : Option ℕ :=
  (s.reverse.findIdx? (· == ch)).map (s.length - 1 - ·)

theorem findIdx?_eq_none {ch : Char} {s : Chars} (h : ch ∉ s) : s.findIdx? (· == ch) = none := by
  rw [List.findIdx?_eq_none_iff]
  intro c hc
  exact beq_false_of_ne fun he => h (he ▸ hc)

/-- The first occurrence. -/
theorem findIdx?_append_cons {ch : Char} {s : Chars} (h : ch ∉ s) (t : Chars) :
    (s ++ ch :: t).findIdx? (· == ch) = some s.length := by
  rw [List.findIdx?_append, findIdx?_eq_none h, List.findIdx?_cons]
  simp

/-- The last one. -/
theorem findLast_append_cons {ch : Char} {t : Chars} (s : Chars) (h : ch ∉ t) :
    findLast ch (s ++ ch :: t) = some s.length := by
  have hrev : (s ++ ch :: t).reverse = t.reverse ++ ch :: s.reverse := by simp
  rw [findLast, hrev, findIdx?_append_cons (by simpa using h)]
  simp

/-! ## Lines -/

/-- `std::getline`: a line, and what is left of the stream if that is not at its end. -/
def getline (delim : Char) (ss : Chars) : Chars × Option Chars :=
  (ss.takeWhile (· != delim),
    match ss.dropWhile (· != delim) with
    | [] => none
    | _ :: rest => some rest)

theorem getline_cons_self (delim : Char) (ss : Chars) :
    getline delim (delim :: ss) = ([], some ss) := by
  simp [getline]

theorem getline_cons_of_ne {c delim : Char} (h : c ≠ delim) (ss : Chars) :
    getline delim (c :: ss) = (c :: (getline delim ss).1, (getline delim ss).2) := by
  simp [getline, h]

theorem getline_length {delim : Char} {ss rest : Chars} (h : (getline delim ss).2 = some rest) :
    rest.length < ss.length := by
  induction ss with
  | nil => cases h
  | cons c ss ih =>
    by_cases hc : c = delim
    · rw [hc, getline_cons_self] at h
      cases h
      exact Nat.lt_succ_self _
    · rw [getline_cons_of_ne hc] at h
      exact Nat.lt_succ_of_lt (ih h)

/-- What a loop gets `while (ss.good())`. -/
def lines (delim : Char) (ss : Chars) : List Chars :=
  match _h : (getline delim ss).2 with
  | none => [(getline delim ss).1]
  | some rest => (getline delim ss).1 :: lines delim rest
termination_by ss.length
decreasing_by exact getline_length _h

theorem lines_of_end {delim : Char} {ss : Chars} (h : (getline delim ss).2 = none) :
    lines delim ss = [(getline delim ss).1] := by
  rw [lines]
  split
  · rfl
  · simp_all

theorem lines_of_rest {delim : Char} {ss rest : Chars} (h : (getline delim ss).2 = some rest) :
    lines delim ss = (getline delim ss).1 :: lines delim rest := by
  rw [lines]
  split <;> simp_all

/-- The text is split, and an empty one is a line as well. -/
theorem lines_eq_splitOn (delim : Char) (ss : Chars) : lines delim ss = ss.splitOn delim := by
  induction ss with
  | nil => exact lines_of_end rfl
  | cons c ss ih =>
    rw [List.splitOn_cons_eq_if_modifyHead, ← ih]
    by_cases hc : c = delim
    · have hget := getline_cons_self delim ss
      rw [hc, lines_of_rest (congrArg Prod.snd hget), hget, if_pos (beq_self_eq_true delim)]
    · have hget := getline_cons_of_ne hc ss
      rw [if_neg (by simpa using hc)]
      cases hrest : (getline delim ss).2 with
      | none => rw [lines_of_end hrest, lines_of_end (by rw [hget, hrest]), hget]; rfl
      | some rest => rw [lines_of_rest hrest, lines_of_rest (by rw [hget, hrest]), hget]; rfl

/-! ## Numbers -/

def intMax : ℤ := 2 ^ 31 - 1

def intMin : ℤ := -2 ^ 31

/-- `isspace`. -/
def isSpace (c : Char) : Bool := c == ' ' || (9 ≤ c.toNat && c.toNat ≤ 13)

/-- The digits that a text starts with; it is 0 where there are none. -/
def leadingValue (s : Chars) : ℕ := Nat.ofDigitChars 10 (s.takeWhile Char.isDigit) 0

/-- `>>` into an `int`. A number out of range becomes the nearest limit, and where there is
nothing but space the `int` stays what it was. -/
def extractInt (old : Int32) (s : Chars) : ℤ :=
  match s.dropWhile isSpace with
  | [] => old.toInt
  | '-' :: t => max intMin (-leadingValue t)
  | '+' :: t => min intMax (leadingValue t)
  | c :: t => min intMax (leadingValue (c :: t))

/-- `<<` of an `int`. -/
def decimal : ℤ → Chars
  | .ofNat n => Nat.toDigits 10 n
  | .negSucc n => '-' :: Nat.toDigits 10 (n + 1)

/-- `<<` after `setw` and `setfill`. -/
def pad (width : ℤ) (fill : Char) (s : Chars) : Chars :=
  .replicate (width.toNat - s.length) fill ++ s

theorem extractInt_le (old : Int32) (s : Chars) : extractInt old s ≤ intMax := by
  have hold := old.toInt_lt
  unfold extractInt intMax intMin
  split <;> omega

/-- A number that is not out of range is read. -/
theorem extractInt_digits (old : Int32) {d : Chars} (hne : d ≠ []) (hd : ∀ c ∈ d, c.isDigit)
    (hle : (Nat.ofDigitChars 10 d 0 : ℤ) ≤ intMax) :
    extractInt old d = Nat.ofDigitChars 10 d 0 := by
  obtain ⟨c, t, rfl⟩ := List.exists_cons_of_ne_nil hne
  have hc := hd c List.mem_cons_self
  have hvalue : leadingValue (c :: t) = Nat.ofDigitChars 10 (c :: t) 0 := by
    rw [leadingValue, List.takeWhile_eq_self_iff.mpr hd]
  have hnat : 48 ≤ c.toNat := (Char.isDigit_iff_toNat.mp hc).1
  have hspace : isSpace c = false := by
    have hne : c ≠ ' ' := fun he => by simp [he] at hnat
    simp only [isSpace, beq_false_of_ne hne, Bool.false_or]
    simp only [Bool.and_eq_false_iff, decide_eq_false_iff_not]
    omega
  rw [extractInt, List.dropWhile_cons_of_neg (by simp [hspace])]
  split
  · rename_i h
    cases h
  · rename_i h
    cases h
    exact absurd hc (by decide)
  · rename_i h
    cases h
    exact absurd hc (by decide)
  · rename_i h
    cases h
    rw [hvalue, min_eq_right hle]

theorem length_pad (width : ℤ) (fill : Char) (s : Chars) :
    (pad width fill s).length = max width.toNat s.length := by
  rw [pad, List.length_append, List.length_replicate]
  omega

end HermesShm.Base
