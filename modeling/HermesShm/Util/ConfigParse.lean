import HermesShm.Base.Text
import HermesShm.Memory.MpPage

/-! # Host name strings

`ParseHostNameString` of `config_parse.h`. Hosts are parted by `;`, and a host may have a
list of ranges in brackets, `hello[00-09,10]-40g`. -/
namespace HermesShm.Util.ConfigParse
open HermesShm.Base
open HermesShm.Memory (sizeT)

/-! ## Parsing -/

def rmChar (str : Chars) (ch : Char) : Chars := str.filter (· != ch)

def rmWhitespace (hostname_set_str : Chars) : Chars :=
  rmChar (rmChar (rmChar (rmChar hostname_set_str ' ') '\n') '\r') '\t'

/-- The tuple of (min, max, num_width). -/
structure Range where
  min : ℤ
  max : ℤ
  num_width : ℤ
deriving DecidableEq

/-- A host name, "divided into prefix, ranges, and suffix" if it has brackets. -/
inductive HostSet where
  | plain (hostname : Chars)
  | bracketed (pre : Chars) (ranges : List Range) (suf : Chars)
deriving DecidableEq

def HostSet.rangeList : HostSet → List Range
  | .plain _ => []
  | .bracketed _ ranges _ => ranges

/-- What the `int`s that a host's ranges are read into hold before. -/
abbrev Old := ℕ → Int32 × Int32

def parseRange (old : Int32 × Int32) (range_str : Chars) : Option Range :=
  match range_str.findIdx? (· == '-') with
  | some dash =>
    let min_str := range_str.take dash
    let max_str := range_str.drop (dash + 1)
    some {
      min := extractInt old.1 min_str
      max := extractInt old.2 max_str
      num_width := if min_str.length = max_str.length then toInt min_str.length else 0 }
  | none =>
    if range_str.length ≠ 0 then
      let val := extractInt old.1 range_str
      some { min := val, max := val, num_width := toInt range_str.length }
    else none

/-- A single number is a range from itself to itself. -/
theorem parseRange_digits (old : Int32 × Int32) {d : Chars} (hne : d ≠ [])
    (hd : ∀ c ∈ d, c.isDigit) (hle : (Nat.ofDigitChars 10 d 0 : ℤ) ≤ intMax) :
    parseRange old d = some ⟨Nat.ofDigitChars 10 d 0, Nat.ofDigitChars 10 d 0, toInt d.length⟩ := by
  have hdash : '-' ∉ d := fun hmem => absurd (hd _ hmem) (by decide)
  rw [parseRange, findIdx?_eq_none hdash]
  simp only [extractInt_digits old.1 hne hd hle]
  exact if_pos (mt List.length_eq_zero_iff.mp hne)

/-- "Parse the range list". -/
def parseRanges (old : Old) (ranges_str : Chars) : List Range :=
  (lines ',' ranges_str).zipIdx.filterMap fun (range_str, j) =>
    parseRange (old j) (rmChar range_str ' ')

/-- The length of `ranges_str` wraps where the brackets are the wrong way round. -/
def divide (old : Old) (hostname : Chars) : HostSet :=
  match hostname.findIdx? (· == '['), findLast ']' hostname with
  | some lbracket, some rbracket =>
    let length := wordSub sizeT (wordSub sizeT rbracket lbracket) 1
    .bracketed (hostname.take lbracket)
      (parseRanges old ((hostname.drop (lbracket + 1)).take length))
      (hostname.drop (rbracket + 1))
  | _, _ => .plain hostname

def hostSets (old : ℕ → Old) (hostname_set_str : Chars) : List HostSet :=
  let hostname_set_str := rmWhitespace hostname_set_str
  if hostname_set_str.length = 0 then []
  else (lines ';' hostname_set_str).zipIdx.map fun (hostname, k) => divide (old k) hostname

theorem divide_of_brackets {old : Old} {hostname : Chars} {lbracket rbracket : ℕ}
    (hl : hostname.findIdx? (· == '[') = some lbracket) (hr : findLast ']' hostname = some rbracket)
    (hlt : lbracket < rbracket) :
    divide old hostname = .bracketed (hostname.take lbracket)
      (parseRanges old ((hostname.drop (lbracket + 1)).take (rbracket - lbracket - 1)))
      (hostname.drop (rbracket + 1)) := by
  simp only [divide, hl, hr, wordSub_of_le (Nat.le_of_lt hlt),
    wordSub_of_le (Nat.sub_pos_of_lt hlt)]

/-! ## Expanding -/

def hostName (pre suf : Chars) (num_width i : ℤ) : Chars :=
  pre ++ pad num_width '0' (decimal i) ++ suf

/-- The `for` loop. There is nothing after the greatest `int`. -/
def expandLoop (host : ℤ → Chars) (i max : ℤ) : Option (List Chars) :=
  if i ≤ max then
    if i = intMax then none
    else do
      let hosts ← expandLoop host (i + 1) max
      some (host i :: hosts)
  else some []
termination_by (max + 1 - i).toNat

def expandRange (pre suf : Chars) (range : Range) : Option (List Chars) :=
  expandLoop (hostName pre suf range.num_width) range.min range.max

/-- "Expand the host names by each range". -/
def expand : HostSet → Option (List Chars)
  | .plain hostname => some [hostname]
  | .bracketed pre ranges suf => do
    let hosts ← ranges.mapM (expandRange pre suf)
    some hosts.flatten

def parseHostNameString (old : ℕ → Old) (hostname_set_str : Chars) (list : List Chars) :
    Option (List Chars) := do
  let hosts ← (hostSets old hostname_set_str).mapM expand
  some (list ++ hosts.flatten)

/-! ## How often the loops turn -/

/-- `max - min + 1`, or none at all. -/
def Range.turns (range : Range) : ℕ := (range.max - range.min + 1).toNat

def Range.hosts (pre suf : Chars) (range : Range) : List Chars :=
  (List.range range.turns).map fun (k : ℕ) => hostName pre suf range.num_width (range.min + k)

def HostSet.hosts : HostSet → List Chars
  | .plain hostname => [hostname]
  | .bracketed pre ranges suf => ranges.flatMap (Range.hosts pre suf)

def HostSet.count : HostSet → ℕ
  | .plain _ => 1
  | .bracketed _ ranges _ => (ranges.map Range.turns).sum

variable {old : ℕ → Old} {s : Chars} {list : List Chars} {range : Range} {pre suf : Chars}

theorem expandLoop_eq (host : ℤ → Chars) {i max : ℤ} (hmax : max < intMax) :
    expandLoop host i max =
      some ((List.range (max - i + 1).toNat).map fun (k : ℕ) => host (i + k)) := by
  induction hn : (max - i + 1).toNat generalizing i with
  | zero =>
    rw [expandLoop, if_neg (by omega)]
    rfl
  | succ n ih =>
    have hrest : (fun k : ℕ => host (i + 1 + k)) = (fun k : ℕ => host (i + k)) ∘ Nat.succ :=
      funext fun k => congrArg host (by simp; omega)
    rw [expandLoop, if_pos (by omega), if_neg (by omega), ih (by omega), hrest,
      List.range_succ_eq_map, List.map_cons, List.map_map, Int.natCast_zero, Int.add_zero]
    rfl

/-- A loop up to the greatest `int` goes on past it. -/
theorem expandLoop_intMax (host : ℤ → Chars) {i : ℤ} (hi : i ≤ intMax) :
    expandLoop host i intMax = none := by
  induction hn : (intMax - i).toNat generalizing i with
  | zero => rw [expandLoop, if_pos hi, if_pos (by omega)]
  | succ n ih =>
    rw [expandLoop, if_pos hi, if_neg (by omega), ih (by omega) (by omega)]
    rfl

theorem parseRange_le {old : Int32 × Int32} {range_str : Chars}
    (h : parseRange old range_str = some range) : range.min ≤ intMax ∧ range.max ≤ intMax := by
  unfold parseRange at h
  split at h
  · cases h
    exact ⟨extractInt_le _ _, extractInt_le _ _⟩
  · split at h
    · cases h
      exact ⟨extractInt_le _ _, extractInt_le _ _⟩
    · cases h

theorem mem_hostSets {set : HostSet} (h : set ∈ hostSets old s) :
    ∃ k hostname, set = divide (old k) hostname := by
  simp only [hostSets] at h
  split at h
  · cases h
  · obtain ⟨⟨hostname, k⟩, -, rfl⟩ := List.mem_map.mp h
    exact ⟨k, hostname, rfl⟩

/-- The ends of a range are `int`s. -/
theorem rangeList_le {set : HostSet} (hset : set ∈ hostSets old s) (h : range ∈ set.rangeList) :
    range.min ≤ intMax ∧ range.max ≤ intMax := by
  obtain ⟨k, hostname, rfl⟩ := mem_hostSets hset
  unfold divide at h
  split at h
  · obtain ⟨⟨range_str, j⟩, -, h⟩ := List.mem_filterMap.mp h
    exact parseRange_le h
  · cases h

/-! ## Where the call returns -/

section
variable {α β : Type} {f : α → Option β} {l : List α} {a : α}

theorem mapM_eq_some {g : α → β} (h : ∀ a ∈ l, f a = some (g a)) : l.mapM f = some (l.map g) := by
  induction l with
  | nil => rfl
  | cons a l ih =>
    rw [List.mapM_cons, h a List.mem_cons_self, ih fun b hb => h b (List.mem_cons_of_mem _ hb)]
    rfl

theorem mapM_eq_none (ha : a ∈ l) (h : f a = none) : l.mapM f = none := by
  induction l with
  | nil => cases ha
  | cons b l ih =>
    rw [List.mapM_cons]
    rcases List.mem_cons.mp ha with rfl | ha
    · rw [h]
      rfl
    · rw [ih ha]
      cases f b <;> rfl

end

/-- A range that does not end at the greatest `int` is expanded. -/
theorem expandRange_eq (hmax : range.max < intMax) :
    expandRange pre suf range = some (range.hosts pre suf) := expandLoop_eq _ hmax

theorem expandRange_intMax (hmin : range.min ≤ intMax) (hmax : range.max = intMax) :
    expandRange pre suf range = none := by
  rw [expandRange, hmax, expandLoop_intMax _ hmin]

theorem expand_eq {set : HostSet} (h : ∀ range ∈ set.rangeList, range.max < intMax) :
    expand set = some set.hosts := by
  cases set with
  | plain hostname => rfl
  | bracketed pre ranges suf =>
    have hall : ranges.mapM (expandRange pre suf) = some (ranges.map (Range.hosts pre suf)) :=
      mapM_eq_some fun range hrange => expandRange_eq (h range hrange)
    rw [expand, hall]
    rfl

theorem expand_intMax {set : HostSet} (hrange : range ∈ set.rangeList) (hmin : range.min ≤ intMax)
    (hmax : range.max = intMax) : expand set = none := by
  cases set with
  | plain hostname => cases hrange
  | bracketed pre ranges suf =>
    have hnone : ranges.mapM (expandRange pre suf) = none :=
      mapM_eq_none hrange (expandRange_intMax hmin hmax)
    rw [expand, hnone]
    rfl

theorem length_hosts (set : HostSet) : set.hosts.length = set.count := by
  cases set with
  | plain hostname => rfl
  | bracketed pre ranges suf =>
    simp only [HostSet.hosts, HostSet.count, List.length_flatMap, Range.hosts, List.length_map,
      List.length_range]

theorem parseHostNameString_eq
    (h : ∀ set ∈ hostSets old s, ∀ range ∈ set.rangeList, range.max < intMax) :
    parseHostNameString old s list = some (list ++ (hostSets old s).flatMap HostSet.hosts) := by
  rw [parseHostNameString, mapM_eq_some fun set hset => expand_eq (h set hset)]
  rfl

/-- It does not return where one does. -/
theorem parseHostNameString_intMax {set : HostSet} (hset : set ∈ hostSets old s)
    (hrange : range ∈ set.rangeList) (hmax : range.max = intMax) :
    parseHostNameString old s list = none := by
  have hnone := expand_intMax hrange (rangeList_le hset hrange).1 hmax
  rw [parseHostNameString, mapM_eq_none hset hnone]
  rfl

/-- Every loop turns `max - min + 1` times, if that is positive, and the call returns. -/
def Returns (old : ℕ → Old) (s : Chars) (list : List Chars) : Prop :=
  (∀ set ∈ hostSets old s, ∀ range ∈ set.rangeList, ∀ pre suf,
    ∃ hosts, expandRange pre suf range = some hosts ∧ hosts.length = range.turns) ∧
  ∃ hosts, parseHostNameString old s list = some (list ++ hosts) ∧
    hosts.length = ((hostSets old s).map HostSet.count).sum

/-- **The call returns where no range ends at the greatest `int`**, and nowhere else. -/
theorem parseHostNameString_returns_iff (old : ℕ → Old) (s : Chars) (list : List Chars) :
    (Returns old s list ↔
      ∀ set ∈ hostSets old s, ∀ range ∈ set.rangeList, range.max ≠ intMax) ∧
    ((parseHostNameString old s list).isSome ↔
      ∀ set ∈ hostSets old s, ∀ range ∈ set.rangeList, range.max ≠ intMax) := by
  have hnone : (parseHostNameString old s list).isSome →
      ∀ set ∈ hostSets old s, ∀ range ∈ set.rangeList, range.max ≠ intMax := by
    intro hsome set hset range hrange hmax
    rw [parseHostNameString_intMax hset hrange hmax] at hsome
    cases hsome
  have hreturns : (∀ set ∈ hostSets old s, ∀ range ∈ set.rangeList, range.max ≠ intMax) →
      Returns old s list := by
    intro h
    have hlt : ∀ set ∈ hostSets old s, ∀ range ∈ set.rangeList, range.max < intMax :=
      fun set hset range hrange =>
        lt_of_le_of_ne (rangeList_le hset hrange).2 (h set hset range hrange)
    refine ⟨fun set hset range hrange pre suf =>
      ⟨_, expandRange_eq (hlt set hset range hrange), ?_⟩, _, parseHostNameString_eq hlt, ?_⟩
    · rw [Range.hosts, List.length_map, List.length_range]
    · rw [List.length_flatMap]
      exact congrArg List.sum (List.map_congr_left fun set _ => length_hosts set)
  have hsome : Returns old s list → (parseHostNameString old s list).isSome :=
    fun ⟨_, hosts, he, _⟩ => he ▸ rfl
  exact ⟨⟨fun h => hnone (hsome h), hreturns⟩, hnone, fun h => hsome (hreturns h)⟩

/-- The greatest `int` is a range of its own. -/
theorem parse_greatest (old : ℕ → Old) (list : List Chars) :
    parseHostNameString old "[2147483647]".toList list = none := by
  have hset : hostSets old "[2147483647]".toList = [divide (old 0) "[2147483647]".toList] := by
    have hstrip : rmWhitespace "[2147483647]".toList = "[2147483647]".toList := by decide
    simp only [hostSets, hstrip, lines_eq_splitOn]
    rfl
  have hdivide : divide (old 0) "[2147483647]".toList =
      .bracketed [] (parseRanges (old 0) "2147483647".toList) [] := by
    have hl : "[2147483647]".toList.findIdx? (· == '[') = some 0 := by decide
    have hr : findLast ']' "[2147483647]".toList = some 11 := by decide
    rw [divide_of_brackets hl hr (by decide)]
    rfl
  obtain ⟨range, hrange, hmax⟩ :
      ∃ range ∈ parseRanges (old 0) "2147483647".toList, range.max = intMax := by
    refine ⟨_, List.mem_filterMap.mpr ⟨("2147483647".toList, 0), ?_,
      parseRange_digits (old 0 0) (by decide) (List.all_eq_true.mp (by decide)) (by decide)⟩,
      by decide⟩
    rw [lines_eq_splitOn]
    exact List.mem_singleton_self _
  have hmem : divide (old 0) "[2147483647]".toList ∈ hostSets old "[2147483647]".toList := by
    rw [hset]
    exact List.mem_singleton_self _
  rw [hdivide] at hmem
  exact parseHostNameString_intMax hmem hrange hmax

theorem not_returns_greatest : ¬ Returns (fun _ _ => (0, 0)) "[2147483647]".toList [] := by
  rintro ⟨-, hosts, he, -⟩
  rw [parse_greatest] at he
  cases he

end HermesShm.Util.ConfigParse
