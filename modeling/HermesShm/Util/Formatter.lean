import HermesShm.Base.Text
import HermesShm.Memory.MpPage

/-! # Format strings

`Formatter` of `formatter.h`. A `{` and whatever character comes after it stand for an
argument, and the literal pieces between are kept as offsets and lengths in the string. The
arguments are given as what they are written as. -/
namespace HermesShm.Util.Formatter
open HermesShm.Base
open HermesShm.Memory (sizeT)

/-! ## The functions -/

/-- The `while` loop; `prior` is the last of the offsets. -/
def tokenizeLoop (fmt : Chars) (i : ℕ) (offsets : List (ℕ × ℕ)) (prior : ℕ × ℕ) :
    List (ℕ × ℕ) :=
  if h : i < fmt.length then
    if fmt[i] = '{' then
      tokenizeLoop fmt (i + 2) (offsets ++ [(prior.1, wordSub sizeT i prior.1)])
        (i + 2, wordSub sizeT fmt.length (i + 2))
    else tokenizeLoop fmt (i + 1) offsets prior
  else offsets ++ [prior]
termination_by fmt.length - i

def tokenize (fmt : Chars) : List (ℕ × ℕ) := tokenizeLoop fmt 0 [] (0, fmt.length)

/-- The arguments, each after the piece in front of it. -/
def writeArgs (fmt : Chars) : List (ℕ × ℕ) → List Chars → Option Chars
  | sub :: offsets, arg :: args => do
    let piece ← substr fmt sub.1 sub.2
    let ss ← writeArgs fmt offsets args
    some (piece ++ arg ++ ss)
  | [sub], [] => if sub.2 > 0 then substr fmt sub.1 sub.2 else some []
  | _, _ => some []

/-- There is no result where `substr` throws. -/
def format (fmt : Chars) (args : List Chars) : Option Chars :=
  let offsets := tokenize fmt
  if offsets.length ≠ args.length + 1 then some fmt
  else writeArgs fmt offsets args

/-! ## What they are for -/

/-- How many `{}` there are. -/
def placeholders : Chars → ℕ
  | '{' :: '}' :: s => placeholders s + 1
  | _ :: s => placeholders s
  | [] => 0

/-- The call returns. With another number of arguments than placeholders it returns the
string, and where the pieces between the placeholders have no `{` it puts the arguments
in. -/
def Faithful (fmt : Chars) (args : List Chars) : Prop :=
  ∃ out, format fmt args = some out ∧ (placeholders fmt ≠ args.length → out = fmt) ∧
    ∀ s₀ pieces, '{' ∉ s₀ → (∀ s ∈ pieces, '{' ∉ s) →
      fmt = s₀ ++ pieces.flatMap (fun s => '{' :: '}' :: s) → pieces.length = args.length →
      out = s₀ ++ (args.zip pieces).flatMap fun (arg, s) => arg ++ s

/-! ## The string from left to right -/

/-- The `{` that are met where the character after each is passed over. -/
def openBraces : Chars → ℕ
  | ['{'] => 1
  | '{' :: _ :: s => openBraces s + 1
  | _ :: s => openBraces s
  | [] => 0

/-- The last of them is the end of the string. -/
def dangling : Chars → Bool
  | ['{'] => true
  | '{' :: _ :: s => dangling s
  | _ :: s => dangling s
  | [] => false

/-- The pieces between them, of which `cur` is the start of the first. -/
def literals (cur : Chars) : Chars → List Chars
  | ['{'] => [cur]
  | '{' :: _ :: s => cur :: literals [] s
  | c :: s => literals (cur ++ [c]) s
  | [] => [cur]

variable {fmt s cur : Chars} {c : Char} {args : List Chars}

/-- By the characters that are met. -/
theorem met_induction {P : Chars → Prop} (nil : P []) (last : P ['{'])
    (brace : ∀ c s, P s → P ('{' :: c :: s)) (char : ∀ c s, c ≠ '{' → P s → P (c :: s))
    (s : Chars) : P s := by
  induction hn : s.length using Nat.strong_induction_on generalizing s with
  | _ n ih =>
    match s with
    | [] => exact nil
    | [c] =>
      by_cases hc : c = '{'
      · exact hc ▸ last
      · exact char c [] hc nil
    | c :: d :: s =>
      by_cases hc : c = '{'
      · exact hc ▸ brace d s (ih _ (by rw [← hn, List.length_cons, List.length_cons]; omega) s rfl)
      · exact char c _ hc (ih _ (by rw [← hn]; exact Nat.lt_succ_self _) _ rfl)

@[simp] theorem openBraces_char (h : c ≠ '{') (s : Chars) : openBraces (c :: s) = openBraces s := by
  cases s <;> simp [openBraces, h]

@[simp] theorem dangling_char (h : c ≠ '{') (s : Chars) : dangling (c :: s) = dangling s := by
  cases s <;> simp [dangling, h]

@[simp] theorem literals_char (h : c ≠ '{') (cur s : Chars) :
    literals cur (c :: s) = literals (cur ++ [c]) s := by
  cases s <;> simp [literals, h]

@[simp] theorem placeholders_char (h : c ≠ '{') (s : Chars) :
    placeholders (c :: s) = placeholders s := by
  cases s <;> simp [placeholders, h]

/-- There is a piece after every one of them but the last, if that ends the string. -/
theorem length_literals (cur s : Chars) :
    (literals cur s).length + (dangling s).toNat = openBraces s + 1 := by
  induction s using met_induction generalizing cur with
  | nil => rfl
  | last => rfl
  | brace c s ih =>
    have ih := ih []
    simp only [literals, dangling, openBraces, List.length_cons]
    omega
  | char c s hc ih => simpa [hc] using ih (cur ++ [c])

/-! ## The offsets -/

def piece (fmt : Chars) (sub : ℕ × ℕ) : Option Chars := substr fmt sub.1 sub.2

theorem piece_append {pre : Chars} (h : fmt = pre ++ cur ++ s) :
    piece fmt (pre.length, cur.length) = some cur := by
  rw [piece, substr, h, if_pos (by simp), List.append_assoc, List.drop_left, List.take_left]

theorem wordSub_length (pre cur : Chars) :
    wordSub sizeT (pre ++ cur).length pre.length = cur.length := by
  rw [List.length_append, wordSub_of_le (Nat.le_add_right ..), Nat.add_sub_cancel_left]

section
variable {pre : Chars} {i : ℕ} {offsets : List (ℕ × ℕ)} {prior : ℕ × ℕ}

theorem tokenizeLoop_brace (h : fmt = pre ++ '{' :: s) :
    tokenizeLoop fmt pre.length offsets prior = tokenizeLoop fmt (pre.length + 2)
      (offsets ++ [(prior.1, wordSub sizeT pre.length prior.1)])
      (pre.length + 2, wordSub sizeT fmt.length (pre.length + 2)) := by
  rw [tokenizeLoop, dif_pos (by simp [h]), if_pos (by simp [h])]

theorem tokenizeLoop_char (h : fmt = pre ++ c :: s) (hc : c ≠ '{') :
    tokenizeLoop fmt pre.length offsets prior =
      tokenizeLoop fmt (pre.length + 1) offsets prior := by
  rw [tokenizeLoop, dif_pos (by simp [h]), if_neg (by simpa [h] using hc)]

theorem tokenizeLoop_end (h : fmt.length ≤ i) :
    tokenizeLoop fmt i offsets prior = offsets ++ [prior] := by
  rw [tokenizeLoop, dif_neg (by omega)]

end

/-- The offsets of the pieces, and at a `{` that ends the string one past its end. -/
theorem tokenizeLoop_spec (pre cur : Chars) (hfmt : fmt = pre ++ cur ++ s)
    (offsets : List (ℕ × ℕ)) :
    ∃ subs, tokenizeLoop fmt (pre ++ cur).length offsets (pre.length, fmt.length - pre.length) =
        offsets ++ (subs ++ if dangling s then [(fmt.length + 1, 2 ^ 64 - 1)] else []) ∧
      subs.map (piece fmt) = (literals cur s).map some := by
  induction s using met_induction generalizing pre cur offsets with
  | nil =>
    have hlen : fmt.length = (pre ++ cur).length := by rw [hfmt, List.append_nil]
    refine ⟨[(pre.length, cur.length)], ?_, congrArg (fun x => [x]) (piece_append hfmt)⟩
    rw [tokenizeLoop_end (Nat.le_of_eq hlen), hlen, List.length_append, Nat.add_sub_cancel_left]
    rfl
  | last =>
    have hlen : fmt.length = (pre ++ cur).length + 1 := by
      rw [hfmt, List.length_append, List.length_singleton]
    have hwrap : wordSub sizeT fmt.length (fmt.length + 1) = 2 ^ 64 - 1 := by
      rw [wordSub, if_neg (by omega), sizeT]
      omega
    refine ⟨[(pre.length, cur.length)], ?_, congrArg (fun x => [x]) (piece_append hfmt)⟩
    rw [tokenizeLoop_brace hfmt, wordSub_length, tokenizeLoop_end (by omega),
      show (pre ++ cur).length + 2 = fmt.length + 1 by omega, hwrap, List.append_assoc]
    rfl
  | brace c s ih =>
    have hlen : (pre ++ cur ++ ['{', c] ++ []).length = (pre ++ cur).length + 2 := by
      rw [List.append_nil, List.length_append]
      rfl
    have hle : (pre ++ cur).length + 2 ≤ fmt.length := by
      rw [hfmt]
      simp only [List.length_append, List.length_cons]
      omega
    obtain ⟨subs, he, hsubs⟩ := ih (pre ++ cur ++ ['{', c]) [] (by rw [hfmt]; simp)
      (offsets ++ [(pre.length, cur.length)])
    rw [hlen, ← List.append_nil (pre ++ cur ++ ['{', c]), hlen] at he
    refine ⟨(pre.length, cur.length) :: subs, ?_, ?_⟩
    · rw [tokenizeLoop_brace hfmt, wordSub_length, wordSub_of_le hle, he, List.append_assoc]
      rfl
    · rw [List.map_cons, piece_append hfmt, hsubs]
      rfl
  | char c s hc ih =>
    obtain ⟨subs, he, hsubs⟩ := ih pre (cur ++ [c]) (by rw [hfmt]; simp) offsets
    refine ⟨subs, ?_, by rw [hsubs, literals_char hc]⟩
    have hlen : (pre ++ (cur ++ [c])).length = (pre ++ cur).length + 1 := by
      rw [← List.append_assoc, List.length_append, List.length_singleton]
    rw [tokenizeLoop_char hfmt hc, dangling_char hc, ← he, hlen]

theorem tokenize_spec (fmt : Chars) :
    ∃ subs, tokenize fmt = subs ++ (if dangling fmt then [(fmt.length + 1, 2 ^ 64 - 1)] else []) ∧
      subs.map (piece fmt) = (literals [] fmt).map some :=
  tokenizeLoop_spec [] [] rfl []

theorem length_tokenize (fmt : Chars) : (tokenize fmt).length = openBraces fmt + 1 := by
  obtain ⟨subs, he, hsubs⟩ := tokenize_spec fmt
  have hlen := length_literals [] fmt
  have hsubs := congrArg List.length hsubs
  rw [List.length_map, List.length_map] at hsubs
  rw [he, List.length_append, hsubs, ← hlen]
  cases dangling fmt <;> rfl

/-! ## What is written -/

/-- The pieces with the arguments between them. -/
def fill : List Chars → List Chars → Chars
  | l :: ls, a :: as => l ++ a ++ fill ls as
  | ls, [] => ls.flatten
  | [], _ => []

theorem writeArgs_fill {subs : List (ℕ × ℕ)} {ls : List Chars}
    (hsubs : subs.map (piece fmt) = ls.map some) (hlen : ls.length = args.length + 1) :
    writeArgs fmt subs args = some (fill ls args) := by
  induction args generalizing subs ls with
  | nil =>
    obtain ⟨l, rfl⟩ := List.length_eq_one_iff.mp hlen
    obtain ⟨sub, subs, rfl, hsub, hnil⟩ := List.map_eq_cons_iff.mp hsubs
    obtain rfl := List.map_eq_nil_iff.mp hnil
    rw [writeArgs, fill, List.flatten_singleton]
    split
    · exact hsub
    · rename_i hpos
      have hzero : sub.2 = 0 := by omega
      rw [piece, hzero, substr] at hsub
      split at hsub <;> cases hsub
      rfl
  | cons arg args ih =>
    obtain ⟨l, ls, rfl⟩ := List.exists_cons_of_length_eq_add_one hlen
    obtain ⟨sub, subs, rfl, hsub, htail⟩ := List.map_eq_cons_iff.mp hsubs
    have hrest := ih htail (Nat.succ.inj hlen)
    rw [writeArgs, ← piece, hsub, Option.bind_eq_bind, Option.bind_some, hrest]
    rfl

/-- A `{` at the end leads `substr` past it. -/
theorem writeArgs_dangling {subs : List (ℕ × ℕ)} {ls : List Chars}
    (hsubs : subs.map (piece fmt) = ls.map some) (hlen : ls.length = args.length) :
    writeArgs fmt (subs ++ [(fmt.length + 1, 2 ^ 64 - 1)]) args = none := by
  induction args generalizing subs ls with
  | nil =>
    obtain rfl := List.length_eq_zero_iff.mp hlen
    obtain rfl := List.map_eq_nil_iff.mp hsubs
    rw [List.nil_append, writeArgs, if_pos (show 2 ^ 64 - 1 > 0 by decide), substr,
      if_neg (by omega)]
  | cons arg args ih =>
    obtain ⟨l, ls, rfl⟩ := List.exists_cons_of_length_eq_add_one hlen
    obtain ⟨sub, subs, rfl, hsub, htail⟩ := List.map_eq_cons_iff.mp hsubs
    have hrest := ih htail (Nat.succ.inj hlen)
    rw [List.cons_append, writeArgs, ← piece, hsub, Option.bind_eq_bind, Option.bind_some, hrest]
    rfl

theorem format_of_ne (h : openBraces fmt ≠ args.length) : format fmt args = some fmt := by
  have hlen := length_tokenize fmt
  exact if_pos (by omega)

theorem format_matching (h : openBraces fmt = args.length) :
    format fmt args = writeArgs fmt (tokenize fmt) args := by
  have hlen := length_tokenize fmt
  exact if_neg (by omega)

theorem format_of_eq (h : openBraces fmt = args.length) (hd : dangling fmt = false) :
    format fmt args = some (fill (literals [] fmt) args) := by
  obtain ⟨subs, he, hsubs⟩ := tokenize_spec fmt
  have hlen := length_literals [] fmt
  rw [hd] at he hlen
  rw [format_matching h, he]
  simpa using writeArgs_fill hsubs (by simpa [h] using hlen)

theorem format_dangling (h : openBraces fmt = args.length) (hd : dangling fmt = true) :
    format fmt args = none := by
  obtain ⟨subs, he, hsubs⟩ := tokenize_spec fmt
  have hlen := length_literals [] fmt
  rw [hd] at he hlen
  rw [format_matching h, he]
  exact writeArgs_dangling hsubs (by simpa [h] using hlen)

/-! ## Strings of pieces and placeholders -/

theorem literals_append (h : '{' ∉ s) (cur t : Chars) :
    literals cur (s ++ t) = literals (cur ++ s) t := by
  induction s generalizing cur with
  | nil => rw [List.nil_append, List.append_nil]
  | cons c s ih =>
    have hc : c ≠ '{' := (List.ne_of_not_mem_cons h).symm
    rw [List.cons_append, literals_char hc, ih (List.not_mem_of_not_mem_cons h),
      List.append_assoc]
    rfl

theorem openBraces_append (h : '{' ∉ s) (t : Chars) : openBraces (s ++ t) = openBraces t := by
  induction s with
  | nil => rfl
  | cons c s ih =>
    have hc : c ≠ '{' := (List.ne_of_not_mem_cons h).symm
    rw [List.cons_append, openBraces_char hc, ih (List.not_mem_of_not_mem_cons h)]

theorem join_met {pieces : List Chars} (h : ∀ s ∈ pieces, '{' ∉ s) (cur : Chars) :
    literals cur (pieces.flatMap fun s => '{' :: '}' :: s) = cur :: pieces ∧
      openBraces (pieces.flatMap fun s => '{' :: '}' :: s) = pieces.length := by
  induction pieces generalizing cur with
  | nil => exact ⟨rfl, rfl⟩
  | cons s pieces ih =>
    have hs := h s List.mem_cons_self
    have ih := ih fun t ht => h t (List.mem_cons_of_mem _ ht)
    rw [List.flatMap_cons, List.cons_append, List.cons_append, literals, openBraces,
      literals_append hs, openBraces_append hs, (ih _).1, (ih []).2]
    exact ⟨rfl, rfl⟩

theorem fill_join (s₀ : Chars) {pieces : List Chars} (h : pieces.length = args.length) :
    fill (s₀ :: pieces) args = s₀ ++ (args.zip pieces).flatMap fun (arg, s) => arg ++ s := by
  induction args generalizing s₀ pieces with
  | nil =>
    obtain rfl := List.length_eq_zero_iff.mp h
    simp [fill]
  | cons arg args ih =>
    obtain ⟨s, pieces, rfl⟩ := List.exists_cons_of_length_eq_add_one h
    rw [fill, ih s (Nat.succ.inj h), List.zip_cons_cons, List.flatMap_cons, List.append_assoc,
      List.append_assoc]

/-! ## Other strings -/

theorem fill_replicate (ls : List Chars) (n : ℕ) : fill ls (.replicate n []) = ls.flatten := by
  induction n generalizing ls with
  | zero => cases ls <;> rfl
  | succ n ih =>
    cases ls with
    | nil => rfl
    | cons l ls => rw [List.replicate_succ, fill, ih, List.append_nil, List.flatten_cons]

/-- Every argument takes the place of two characters. -/
theorem length_flatten_literals (hd : dangling s = false) (cur : Chars) :
    (literals cur s).flatten.length + 2 * openBraces s = cur.length + s.length := by
  induction s using met_induction generalizing cur with
  | nil => simp [literals, openBraces]
  | last => cases hd
  | brace c s ih =>
    have ih := ih hd []
    simp only [literals, openBraces, List.flatten_cons, List.length_append, List.length_cons,
      List.length_nil] at ih ⊢
    omega
  | char c s hc ih =>
    have ih := ih (dangling_char hc s ▸ hd) (cur ++ [c])
    rw [literals_char hc, openBraces_char hc, ih]
    simp only [List.length_append, List.length_cons, List.length_nil]
    omega

theorem placeholders_of_none (h : openBraces s = 0) : placeholders s = 0 := by
  induction s using met_induction with
  | nil => rfl
  | last => cases h
  | brace c s ih => cases h
  | char c s hc ih =>
    rw [openBraces_char hc] at h
    rw [placeholders_char hc, ih h]

/-- **Where a format string is handled.** For all texts of `n` arguments the call does what it
is for exactly where it does not meet `n` times a `{`, or where the last that it meets does
not end the string and there are `n` placeholders. -/
theorem format_faithful_iff (fmt : Chars) (n : ℕ) :
    (∀ args, args.length = n → Faithful fmt args) ↔
      openBraces fmt ≠ n ∨ dangling fmt = false ∧ placeholders fmt = n := by
  constructor
  · intro h
    by_cases hne : openBraces fmt = n
    · obtain ⟨out, he, hout, -⟩ := h (.replicate n []) List.length_replicate
      have hlen : openBraces fmt = (List.replicate n ([] : Chars)).length := by
        rw [List.length_replicate, hne]
      have hd : dangling fmt = false := by
        by_contra hd
        rw [format_dangling hlen (Bool.eq_true_of_not_eq_false hd)] at he
        cases he
      refine .inr ⟨hd, ?_⟩
      by_contra hplace
      rw [format_of_eq hlen hd, fill_replicate, hout (by rwa [List.length_replicate]),
        Option.some.injEq] at he
      have hflat := length_flatten_literals hd []
      rw [he, List.length_nil, Nat.zero_add] at hflat
      have hzero : openBraces fmt = 0 := by omega
      exact hplace ((placeholders_of_none hzero).trans (hzero.symm.trans hne))
    · exact .inl hne
  · rintro h args rfl
    by_cases hlen : openBraces fmt = args.length
    · obtain ⟨hd, hplace⟩ := h.resolve_left (not_not_intro hlen)
      refine ⟨_, format_of_eq hlen hd, fun hne => absurd hplace hne, ?_⟩
      rintro s₀ pieces hs₀ hpieces rfl hcount
      rw [literals_append hs₀, (join_met hpieces _).1]
      exact fill_join s₀ hcount
    · refine ⟨fmt, format_of_ne hlen, fun _ => rfl, ?_⟩
      rintro s₀ pieces hs₀ hpieces rfl hcount
      rw [openBraces_append hs₀, (join_met hpieces []).2] at hlen
      exact absurd hcount hlen

/-- A `{` alone is not survived, and one before another character is replaced. -/
theorem not_faithful_brace :
    ¬ Faithful "\x7b".toList ["1".toList] ∧ ¬ Faithful "\x7bx".toList ["1".toList] := by
  refine ⟨fun ⟨out, he, _⟩ => ?_, fun ⟨out, he, hout, _⟩ => ?_⟩
  · rw [format_dangling rfl rfl] at he
    cases he
  · rw [format_of_eq rfl rfl, hout (by decide)] at he
    exact absurd he (by decide)

end HermesShm.Util.Formatter
