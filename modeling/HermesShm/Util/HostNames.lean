import HermesShm.Util.ConfigParse

/-! # Well-formed host name strings

What a list of host specs stands for, and that the parser yields it. -/
namespace HermesShm.Util.ConfigParse
open HermesShm.Base
open HermesShm.Memory (sizeT)

/-! ## Specs -/

/-- What is neither removed nor has a meaning of its own. -/
def Ordinary (c : Char) : Prop := c ∉ [' ', '\n', '\r', '\t', ';', '[', ']']

instance : DecidablePred Ordinary := fun c => inferInstanceAs (Decidable (c ∉ _))

/-- A number that is less than the greatest `int`. -/
structure IsNumber (d : Chars) : Prop where
  ne_nil : d ≠ []
  digits : ∀ c ∈ d, c.isDigit
  lt : (Nat.ofDigitChars 10 d 0 : ℤ) < intMax

instance (d : Chars) : Decidable (IsNumber d) :=
  decidable_of_iff (d ≠ [] ∧ d.all Char.isDigit ∧ (Nat.ofDigitChars 10 d 0 : ℤ) < intMax)
    ⟨fun h => ⟨h.1, List.all_eq_true.mp h.2.1, h.2.2⟩,
      fun h => ⟨h.ne_nil, List.all_eq_true.mpr h.digits, h.lt⟩⟩

inductive RangeSpec where
  | single (digits : Chars)
  | span (min max : Chars)

def RangeSpec.WellFormed : RangeSpec → Prop
  | .single digits => IsNumber digits
  | .span min max => IsNumber min ∧ IsNumber max

instance : DecidablePred RangeSpec.WellFormed
  | .single digits => inferInstanceAs (Decidable (IsNumber digits))
  | .span min max => inferInstanceAs (Decidable (IsNumber min ∧ IsNumber max))

inductive HostSpec where
  | name (hostname : Chars)
  | set (pre : Chars) (ranges : List RangeSpec) (suf : Chars)

def HostSpec.WellFormed : HostSpec → Prop
  | .name hostname => hostname ≠ [] ∧ ∀ c ∈ hostname, Ordinary c
  | .set pre ranges suf =>
    (∀ c ∈ pre, Ordinary c) ∧ (∀ r ∈ ranges, r.WellFormed) ∧ ∀ c ∈ suf, Ordinary c

instance (s : Chars) : Decidable (∀ c ∈ s, Ordinary c) := List.decidableBAll Ordinary s

instance : DecidablePred HostSpec.WellFormed
  | .name hostname => inferInstanceAs (Decidable (hostname ≠ [] ∧ ∀ c ∈ hostname, Ordinary c))
  | .set pre ranges suf => inferInstanceAs (Decidable
    ((∀ c ∈ pre, Ordinary c) ∧ (∀ r ∈ ranges, r.WellFormed) ∧ ∀ c ∈ suf, Ordinary c))

/-! ## As text -/

def RangeSpec.render : RangeSpec → Chars
  | .single digits => digits
  | .span min max => min ++ '-' :: max

def HostSpec.render : HostSpec → Chars
  | .name hostname => hostname
  | .set pre ranges suf =>
    pre ++ '[' :: ([','].intercalate (ranges.map RangeSpec.render) ++ ']' :: suf)

/-! ## What they stand for -/

/-- A number with zeros in front up to a width. -/
def zeroPadded (width i : ℕ) : Chars :=
  .replicate (width - (Nat.toDigits 10 i).length) '0' ++ Nat.toDigits 10 i

/-- The numbers of a range. -/
def RangeSpec.first : RangeSpec → ℕ
  | .single digits => Nat.ofDigitChars 10 digits 0
  | .span min _ => Nat.ofDigitChars 10 min 0

def RangeSpec.last : RangeSpec → ℕ
  | .single digits => Nat.ofDigitChars 10 digits 0
  | .span _ max => Nat.ofDigitChars 10 max 0

def RangeSpec.width : RangeSpec → ℕ
  | .single digits => digits.length
  | .span min max => if min.length = max.length then min.length else 0

def RangeSpec.hosts (pre suf : Chars) (r : RangeSpec) : List Chars :=
  (List.range (r.last + 1 - r.first)).map fun k => pre ++ zeroPadded r.width (r.first + k) ++ suf

def HostSpec.hosts : HostSpec → List Chars
  | .name hostname => [hostname]
  | .set pre ranges suf => ranges.flatMap (RangeSpec.hosts pre suf)

def HostSpec.ranges : HostSpec → List RangeSpec
  | .name _ => []
  | .set _ ranges _ => ranges

/-- The width of a range is that of an `int`, unless there is nothing to pad. -/
def RangeSpec.Short (r : RangeSpec) : Prop := r.first ≤ r.last → r.width < 2 ^ 31

instance (r : RangeSpec) : Decidable r.Short := inferInstanceAs (Decidable (_ ≤ _ → _ < _))

/-! ## Reading a range -/

variable {d : Chars} {r : RangeSpec} {spec : HostSpec} {pre suf : Chars}

theorem IsNumber.not_mem (h : IsNumber d) {c : Char} (hc : c.isDigit = false) : c ∉ d :=
  fun hmem => by rw [h.digits c hmem] at hc; cases hc

def RangeSpec.range (r : RangeSpec) : Range := ⟨r.first, r.last, toInt r.width⟩

theorem RangeSpec.WellFormed.parseRange (h : r.WellFormed) (old : Int32 × Int32) :
    parseRange old r.render = some r.range := by
  cases r with
  | single digits => exact parseRange_digits old h.ne_nil h.digits (le_of_lt h.lt)
  | span min max =>
    obtain ⟨hmin, hmax⟩ := h
    have hdash := findIdx?_append_cons (hmin.not_mem (c := '-') (by decide)) max
    have hwidth : (if min.length = max.length then toInt min.length else 0) =
        toInt (if min.length = max.length then min.length else 0) := by
      split <;> rfl
    simp only [ConfigParse.parseRange, RangeSpec.render, hdash, List.take_left,
      List.drop_length_add_append, List.drop_succ_cons, List.drop_zero,
      extractInt_digits _ hmin.ne_nil hmin.digits (le_of_lt hmin.lt),
      extractInt_digits _ hmax.ne_nil hmax.digits (le_of_lt hmax.lt), hwidth]
    rfl

theorem RangeSpec.WellFormed.not_mem (h : r.WellFormed) {c : Char} (hc : c.isDigit = false)
    (hdash : c ≠ '-') : c ∉ r.render := by
  cases r with
  | single digits => exact IsNumber.not_mem h hc
  | span min max =>
    rw [RangeSpec.render, List.mem_append, List.mem_cons]
    rintro (hmem | rfl | hmem)
    · exact h.1.not_mem hc hmem
    · exact hdash rfl
    · exact h.2.not_mem hc hmem

section
variable {α β : Type} {l : List α}

/-- The index does not matter. -/
theorem filterMap_zipIdx {f : α × ℕ → Option β} {g : α → β}
    (h : ∀ a ∈ l, ∀ j, f (a, j) = some (g a)) (k : ℕ) : (l.zipIdx k).filterMap f = l.map g := by
  induction l generalizing k with
  | nil => rfl
  | cons a l ih =>
    rw [List.zipIdx_cons, List.filterMap_cons_some (h a List.mem_cons_self k),
      ih fun b hb => h b (List.mem_cons_of_mem _ hb), List.map_cons]

theorem map_zipIdx {f : α × ℕ → β} {g : α → β} (h : ∀ a ∈ l, ∀ j, f (a, j) = g a) (k : ℕ) :
    (l.zipIdx k).map f = l.map g := by
  induction l generalizing k with
  | nil => rfl
  | cons a l ih =>
    rw [List.zipIdx_cons, List.map_cons, h a List.mem_cons_self k,
      ih fun b hb => h b (List.mem_cons_of_mem _ hb), List.map_cons]

theorem flatMap_eq_iff {f g : α → List β} (h : ∀ a ∈ l, (f a).length = (g a).length) :
    l.flatMap f = l.flatMap g ↔ ∀ a ∈ l, f a = g a := by
  induction l with
  | nil => exact ⟨fun _ _ ha => (nomatch ha), fun _ => rfl⟩
  | cons a l ih =>
    have ih := ih fun b hb => h b (List.mem_cons_of_mem _ hb)
    rw [List.flatMap_cons, List.flatMap_cons, List.forall_mem_cons, ← ih]
    refine ⟨fun he => List.append_inj he (h a List.mem_cons_self), fun ⟨he, he'⟩ => ?_⟩
    rw [he, he']

end

theorem rmChar_of_not_mem {s : Chars} {ch : Char} (h : ch ∉ s) : rmChar s ch = s :=
  List.filter_eq_self.mpr fun c hc => by simpa using fun he : c = ch => h (he ▸ hc)

/-! ## Reading a host -/

theorem RangeSpec.WellFormed.rmChar (h : r.WellFormed) : rmChar r.render ' ' = r.render :=
  rmChar_of_not_mem (h.not_mem (by decide) (by decide))

theorem parseRanges_render {ranges : List RangeSpec} (h : ∀ r ∈ ranges, r.WellFormed) (old : Old) :
    parseRanges old ([','].intercalate (ranges.map RangeSpec.render)) =
      ranges.map RangeSpec.range := by
  rw [parseRanges, lines_eq_splitOn]
  by_cases hne : ranges = []
  · subst hne
    rfl
  rw [List.splitOn_intercalate ',' ?_ (by simpa using hne), List.zipIdx_map, List.filterMap_map]
  · refine filterMap_zipIdx (fun r hr j => ?_) 0
    simp only [Function.comp_apply, Prod.map, (h r hr).rmChar]
    exact (h r hr).parseRange _
  · intro t ht
    obtain ⟨r, hr, rfl⟩ := List.mem_map.mp ht
    exact (h r hr).not_mem (by decide) (by decide)

def HostSpec.hostSet : HostSpec → HostSet
  | .name hostname => .plain hostname
  | .set pre ranges suf => .bracketed pre (ranges.map RangeSpec.range) suf

theorem not_mem_intercalate {sep c : Char} {l : List Chars} (hc : c ≠ sep) (h : ∀ t ∈ l, c ∉ t) :
    c ∉ [sep].intercalate l := by
  induction l with
  | nil => exact List.not_mem_nil
  | cons t l ih =>
    have ht := h t List.mem_cons_self
    have ih := ih fun t' ht' => h t' (List.mem_cons_of_mem _ ht')
    cases l with
    | nil => rwa [List.intercalate_singleton]
    | cons t' l =>
      rw [List.intercalate_cons_cons]
      simp only [List.mem_append, List.mem_singleton, not_or]
      exact ⟨⟨ht, hc⟩, ih⟩

/-- Between the brackets there are digits, dashes and commas. -/
theorem not_mem_ranges {ranges : List RangeSpec} (h : ∀ r ∈ ranges, r.WellFormed) {c : Char}
    (hc : c.isDigit = false) (hdash : c ≠ '-') (hcomma : c ≠ ',') :
    c ∉ [','].intercalate (ranges.map RangeSpec.render) := by
  refine not_mem_intercalate hcomma fun t ht => ?_
  obtain ⟨r, hr, rfl⟩ := List.mem_map.mp ht
  exact (h r hr).not_mem hc hdash

theorem HostSpec.WellFormed.divide (h : spec.WellFormed) (old : Old) :
    divide old spec.render = spec.hostSet := by
  cases spec with
  | name hostname =>
    have hl : '[' ∉ hostname := fun hmem => h.2 _ hmem (by decide)
    rw [ConfigParse.divide, HostSpec.render, findIdx?_eq_none hl]
    rfl
  | set pre ranges suf =>
    obtain ⟨hpre, hranges, hsuf⟩ := h
    obtain ⟨t, ht⟩ : ∃ t, [','].intercalate (ranges.map RangeSpec.render) = t := ⟨_, rfl⟩
    have hl := findIdx?_append_cons (s := pre) (fun hmem => hpre '[' hmem (by decide))
      (t ++ ']' :: suf)
    have hr := findLast_append_cons (t := suf) (pre ++ '[' :: t) fun hmem =>
      hsuf ']' hmem (by decide)
    rw [List.append_assoc, List.cons_append] at hr
    have hlen : (pre ++ '[' :: t).length = pre.length + 1 + t.length := by
      rw [List.length_append, List.length_cons]
      omega
    rw [HostSpec.render, ht, divide_of_brackets hl hr (by omega), hlen,
      show pre.length + 1 + t.length - pre.length - 1 = t.length by omega, List.take_left]
    have hdrop : (pre ++ '[' :: (t ++ ']' :: suf)).drop (pre.length + 1) = t ++ ']' :: suf := by
      simp
    have hdrop' : (pre ++ '[' :: (t ++ ']' :: suf)).drop (pre.length + 1 + t.length + 1) = suf := by
      rw [Nat.add_assoc (pre.length + 1), ← List.drop_drop, hdrop]
      simp
    rw [hdrop, hdrop', List.take_left, ← ht, parseRanges_render hranges]
    rfl

theorem HostSpec.WellFormed.not_mem (h : spec.WellFormed) : ';' ∉ spec.render := by
  have hord : ¬ Ordinary ';' := fun h => h (by decide)
  cases spec with
  | name hostname => exact fun hmem => hord (h.2 _ hmem)
  | set pre ranges suf =>
    obtain ⟨hpre, hranges, hsuf⟩ := h
    have hmid := not_mem_ranges hranges (c := ';') (by decide) (by decide) (by decide)
    rw [HostSpec.render, List.mem_append, List.mem_cons, List.mem_append, List.mem_cons]
    rintro (hmem | he | hmem | he | hmem)
    · exact hord (hpre _ hmem)
    · exact absurd he (by decide)
    · exact hmid hmem
    · exact absurd he (by decide)
    · exact hord (hsuf _ hmem)

theorem HostSpec.WellFormed.render_ne_nil (h : spec.WellFormed) : spec.render ≠ [] := by
  cases spec with
  | name hostname => exact h.1
  | set pre ranges suf => simp [HostSpec.render]

/-- The parser takes the text apart as it has been put together. -/
theorem hostSets_render {specs : List HostSpec} (h : ∀ spec ∈ specs, spec.WellFormed) {s : Chars}
    (hs : rmWhitespace s = [';'].intercalate (specs.map HostSpec.render)) (old : ℕ → Old) :
    hostSets old s = specs.map HostSpec.hostSet := by
  simp only [hostSets, hs]
  by_cases hne : specs = []
  · rw [hne]
    rfl
  obtain ⟨spec, rest, rfl⟩ := List.exists_cons_of_ne_nil hne
  have hlen : ([';'].intercalate ((spec :: rest).map HostSpec.render)).length ≠ 0 := by
    have hspec := (h spec List.mem_cons_self).render_ne_nil
    cases rest with
    | nil => simpa using hspec
    | cons spec' rest => simp
  rw [if_neg hlen, lines_eq_splitOn, List.splitOn_intercalate ';' ?_ (by simp), List.zipIdx_map,
    List.map_map]
  · exact map_zipIdx (fun spec hspec k => (h spec hspec).divide (old k)) 0
  · intro t ht
    obtain ⟨spec, hspec, rfl⟩ := List.mem_map.mp ht
    exact (h spec hspec).not_mem

/-! ## Padding -/

/-- A number below `2 ^ 31` has at most ten digits. -/
theorem pad_eq_iff {i : ℕ} (hi : (i : ℤ) < intMax) (width : ℕ) :
    pad (toInt width) '0' (decimal i) = zeroPadded width i ↔ width < 2 ^ 31 := by
  have hdec : decimal i = Nat.toDigits 10 i := rfl
  have hlen : (Nat.toDigits 10 i).length ≤ 10 :=
    (Nat.length_toDigits_le_iff (by decide) (by decide)).mpr (by unfold intMax at hi; omega)
  unfold toInt
  constructor
  · intro he
    by_contra hlong
    have he := congrArg List.length he
    rw [length_pad, zeroPadded, List.length_append, List.length_replicate, hdec, Int.bmod_def] at he
    split at he <;> omega
  · intro hlt
    rw [Int.bmod_eq_of_le (by omega) (by omega), pad, zeroPadded, hdec, Int.toNat_natCast]

theorem RangeSpec.WellFormed.last_lt (h : r.WellFormed) : (r.last : ℤ) < intMax := by
  cases r with
  | single digits => exact IsNumber.lt h
  | span min max => exact h.2.lt

theorem length_hosts_range (pre suf : Chars) (r : RangeSpec) :
    (r.range.hosts pre suf).length = (r.hosts pre suf).length := by
  simp only [Range.hosts, RangeSpec.hosts, Range.turns, RangeSpec.range, List.length_map,
    List.length_range]
  omega

theorem RangeSpec.WellFormed.hosts_eq_iff (h : r.WellFormed) (pre suf : Chars) :
    r.range.hosts pre suf = r.hosts pre suf ↔ r.Short := by
  have hlast := h.last_lt
  have hturns : r.range.turns = r.last + 1 - r.first := by
    simp only [Range.turns, RangeSpec.range]
    omega
  have hname : ∀ k ∈ List.range (r.last + 1 - r.first),
      (hostName pre suf r.range.num_width (r.range.min + k) =
        pre ++ zeroPadded r.width (r.first + k) ++ suf ↔ r.width < 2 ^ 31) := by
    intro k hk
    rw [List.mem_range] at hk
    have hmin : r.range.min + k = ((r.first + k : ℕ) : ℤ) := by simp only [RangeSpec.range]; omega
    rw [hostName, List.append_left_inj, List.append_right_inj, hmin]
    dsimp only [RangeSpec.range]
    exact pad_eq_iff (by omega) r.width
  rw [Range.hosts, RangeSpec.hosts, hturns, List.map_inj_left]
  constructor
  · intro he hle
    have hk : 0 ∈ List.range (r.last + 1 - r.first) := List.mem_range.mpr (by omega)
    exact (hname 0 hk).mp (he 0 hk)
  · intro hshort k hk
    exact (hname k hk).mpr (hshort (by have := List.mem_range.mp hk; omega))

/-! ## The parser's hosts -/

theorem length_hosts_hostSet (spec : HostSpec) :
    spec.hostSet.hosts.length = spec.hosts.length := by
  cases spec with
  | name hostname => rfl
  | set pre ranges suf =>
    simp only [HostSpec.hostSet, HostSet.hosts, HostSpec.hosts, List.flatMap_map,
      List.length_flatMap, length_hosts_range]

theorem HostSpec.WellFormed.hosts_eq_iff (h : spec.WellFormed) :
    spec.hostSet.hosts = spec.hosts ↔ ∀ r ∈ spec.ranges, r.Short := by
  cases spec with
  | name hostname => exact ⟨fun _ _ hr => (nomatch hr), fun _ => rfl⟩
  | set pre ranges suf =>
    rw [HostSpec.hostSet, HostSet.hosts, HostSpec.hosts, List.flatMap_map,
      flatMap_eq_iff fun r _ => length_hosts_range pre suf r]
    exact forall₂_congr fun r hr => (h.2.1 r hr).hosts_eq_iff pre suf

theorem hostSet_lt (h : spec.WellFormed) {range : Range} (hr : range ∈ spec.hostSet.rangeList) :
    range.max < intMax := by
  cases spec with
  | name hostname => cases hr
  | set pre ranges suf =>
    obtain ⟨r, hmem, rfl⟩ := List.mem_map.mp hr
    exact (h.2.1 r hmem).last_lt

theorem parseHostNameString_render {specs : List HostSpec} (h : ∀ spec ∈ specs, spec.WellFormed)
    {s : Chars} (hs : rmWhitespace s = [';'].intercalate (specs.map HostSpec.render))
    (old : ℕ → Old) (list : List Chars) :
    parseHostNameString old s list =
      some (list ++ specs.flatMap fun spec => spec.hostSet.hosts) := by
  have hsets := hostSets_render h hs old
  rw [parseHostNameString_eq, hsets, List.flatMap_map]
  intro set hset range hrange
  rw [hsets] at hset
  obtain ⟨spec, hspec, rfl⟩ := List.mem_map.mp hset
  exact hostSet_lt (h spec hspec) hrange

theorem hosts_eq_iff {specs : List HostSpec} (h : ∀ spec ∈ specs, spec.WellFormed) :
    (specs.flatMap fun spec => spec.hostSet.hosts) = specs.flatMap HostSpec.hosts ↔
      ∀ spec ∈ specs, ∀ r ∈ spec.ranges, r.Short := by
  rw [flatMap_eq_iff fun spec _ => length_hosts_hostSet spec]
  exact forall₂_congr fun spec hspec => (h spec hspec).hosts_eq_iff

/-- **The parser yields what the specs stand for**, where no width is too long for an
`int`. The text may have blanks anywhere. -/
theorem parseHostNameString_wellFormed (old : ℕ → Old) (specs : List HostSpec) (s : Chars)
    (list : List Chars) (h : ∀ spec ∈ specs, spec.WellFormed)
    (hs : rmWhitespace s = [';'].intercalate (specs.map HostSpec.render)) :
    parseHostNameString old s list = some (list ++ specs.flatMap HostSpec.hosts) ↔
      ∀ spec ∈ specs, ∀ r ∈ spec.ranges, r.Short := by
  rw [parseHostNameString_render h hs, ← hosts_eq_iff h, Option.some.injEq,
    List.append_right_inj]

/-- The example of the source, with a blank in it. -/
theorem parseHostNameString_hello :
    parseHostNameString (fun _ _ => (0, 0)) "hello[00-09, 10]-40g;hello2[11-13]-40g".toList [] =
      some ([] ++ [HostSpec.set "hello".toList [.span "00".toList "09".toList, .single "10".toList]
        "-40g".toList, .set "hello2".toList [.span "11".toList "13".toList] "-40g".toList].flatMap
          HostSpec.hosts) :=
  (parseHostNameString_wellFormed _ _ _ _ (by decide) (by decide)).mpr (by decide)

/-- A host of which the number is 1, with `n` zeros in front. -/
def padded (n : ℕ) : HostSpec := .set [] [.single (.replicate n '0' ++ ['1'])] []

theorem padded_wellFormed (n : ℕ) : (padded n).WellFormed := by
  refine ⟨fun _ hc => (nomatch hc), fun r hr => ?_, fun _ hc => (nomatch hc)⟩
  obtain rfl := List.mem_singleton.mp hr
  refine ⟨by simp, fun c hc => ?_, ?_⟩
  · rcases List.mem_append.mp hc with hc | hc
    · rw [List.eq_of_mem_replicate hc]
      rfl
    · rw [List.mem_singleton.mp hc]
      rfl
  · rw [Nat.ofDigitChars_append, Nat.ofDigitChars_replicate_zero, Nat.mul_zero]
    decide

theorem rmWhitespace_padded (n : ℕ) : rmWhitespace (padded n).render = (padded n).render := by
  have hmem : ∀ c ∈ [' ', '\n', '\r', '\t'], c ∉ (padded n).render := by
    intro c hc hmem
    simp only [padded, HostSpec.render, RangeSpec.render, List.nil_append, List.map_cons,
      List.map_nil, List.intercalate_singleton, List.mem_cons, List.mem_append,
      List.mem_replicate, List.not_mem_nil, or_false] at hmem hc
    rcases hmem with rfl | (⟨-, rfl⟩ | rfl) | rfl <;> exact absurd hc (by decide)
  simp only [rmWhitespace, rmChar_of_not_mem (hmem ' ' (by decide)),
    rmChar_of_not_mem (hmem '\n' (by decide)), rmChar_of_not_mem (hmem '\r' (by decide)),
    rmChar_of_not_mem (hmem '\t' (by decide))]

theorem parse_padded_iff (n : ℕ) (old : ℕ → Old) (list : List Chars) :
    parseHostNameString old (padded n).render list = some (list ++ (padded n).hosts) ↔
      n + 1 < 2 ^ 31 := by
  have hwell : ∀ spec ∈ [padded n], spec.WellFormed := fun spec hspec =>
    List.mem_singleton.mp hspec ▸ padded_wellFormed n
  have hs : rmWhitespace (padded n).render =
      [';'].intercalate ([padded n].map HostSpec.render) := by
    rw [rmWhitespace_padded, List.map_singleton, List.intercalate_singleton]
  have hiff := hosts_eq_iff hwell
  rw [List.flatMap_singleton, List.flatMap_singleton, List.forall_mem_singleton] at hiff
  rw [parseHostNameString_render hwell hs, List.flatMap_singleton, Option.some.injEq,
    List.append_right_inj, hiff, padded, HostSpec.ranges, List.forall_mem_singleton,
    RangeSpec.Short, RangeSpec.width, List.length_append, List.length_replicate]
  exact ⟨fun h => h (Nat.le_refl _), fun h _ => h⟩

/-- So many zeros that the width is not that of an `int`: there is no padding. -/
theorem not_parse_wide :
    parseHostNameString (fun _ _ => (0, 0)) (padded (2 ^ 31 - 1)).render [] ≠
      some ([] ++ (padded (2 ^ 31 - 1)).hosts) := fun he =>
  absurd ((parse_padded_iff _ _ []).mp he) (by decide)

end HermesShm.Util.ConfigParse
