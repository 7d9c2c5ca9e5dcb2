import HermesShm.Base.Text
import Mathlib.Data.List.Infix

/-! # Environment variables in a path

`ExpandPath` of `config_parse.h`. The expression that it searches for has no group, so the
names that it then goes through are one, that of the first `${NAME}` of the path. -/
namespace HermesShm.Util.ConfigParse
open HermesShm.Base

/-! ## The function -/

/-- The expression `\$\{[^\}]+\}` at the start of a text: what is between the braces, and
what comes after them. -/
def matchVariable : Chars → Option (Chars × Chars)
  | '$' :: '{' :: s =>
    match s.takeWhile (· != '}'), s.dropWhile (· != '}') with
    | c :: name, _ :: rest => some (c :: name, rest)
    | _, _ => none
  | _ => none

/-- `regex_search`, with `env_name` of the match that it finds. -/
def regexSearch : Chars → Option Chars
  | [] => none
  | c :: s =>
    match matchVariable (c :: s) with
    | some (env_name, _) => some env_name
    | none => regexSearch s

/-- `${NAME}`. -/
def occurrence (name : Chars) : Chars := '$' :: '{' :: (name ++ ['}'])

/-- A character that stands for itself in an expression, and does not end a C string. -/
def isLiteral (c : Char) : Bool := !("^$\\.*+?()[]\x7b\x7d|\x00".toList.contains c)

/-- `regex_replace` where the text stands for itself, as does a value without `$`, after `k`
characters that belong to a match. -/
def replaceFrom (name env_val : Chars) : ℕ → Chars → Chars
  | _, [] => []
  | k + 1, _ :: s => replaceFrom name env_val k s
  | 0, c :: s =>
    if (occurrence name).isPrefixOf (c :: s) then
      env_val ++ replaceFrom name env_val (name.length + 2) s
    else c :: replaceFrom name env_val 0 s

/-- What `regex_replace` does with a text that is an expression of its own is `special`, which
gives nothing where the expression is not well formed: `regex_error` is thrown. -/
def regexReplace (special : Chars → Chars → Chars → Option Chars) (name env_val path : Chars) :
    Option Chars :=
  if name.all isLiteral then some (replaceFrom name env_val 0 path)
  else special name env_val path

/-- The text is empty where the variable is not set. -/
def getenv (env : Chars → Option Chars) (name : Chars) : Chars := (env name).getD []

def expandPath (special : Chars → Chars → Chars → Option Chars) (env : Chars → Option Chars)
    (path : Chars) : Option Chars :=
  match regexSearch path with
  | none => some path
  | some env_name => regexReplace special env_name (getenv env env_name) path

/-! ## What it is for -/

/-- A letter, a digit or an underscore. -/
def isWord (c : Char) : Bool := c.isAlphanum || c == '_'

/-- A `${NAME}` at the start of a text. -/
def nameAt (s : Chars) : Option (Chars × Chars) := (matchVariable s).filter fun p => p.1.all isWord

/-- What the search finds is a `${NAME}`. -/
def FindsName (path : Chars) : Prop := ∀ name ∈ regexSearch path, name.all isWord = true

instance (path : Chars) : Decidable (FindsName path) :=
  inferInstanceAs (Decidable (∀ name ∈ _, _))

inductive Piece where
  | char (c : Char)
  | var (name : Chars)
deriving DecidableEq

/-- A path taken apart, after `k` characters that belong to a `${NAME}`. -/
def piecesFrom : ℕ → Chars → List Piece
  | _, [] => []
  | k + 1, _ :: s => piecesFrom k s
  | 0, c :: s =>
    match nameAt (c :: s) with
    | some (name, _) => .var name :: piecesFrom (name.length + 2) s
    | none => .char c :: piecesFrom 0 s

def pieces (path : Chars) : List Piece := piecesFrom 0 path

/-- A variable is put in. -/
def Piece.expand (env : Chars → Option Chars) : Piece → Chars
  | .char c => [c]
  | .var name => getenv env name

def expansion (env : Chars → Option Chars) (path : Chars) : Chars :=
  (pieces path).flatMap (Piece.expand env)

def ContainsName (s : Chars) : Prop := ∃ t, t <:+ s ∧ (nameAt t).isSome

/-- All variables are put in, and none are left. -/
def Expands (special : Chars → Chars → Chars → Option Chars) (env : Chars → Option Chars)
    (path : Chars) : Prop :=
  ∃ result, expandPath special env path = some result ∧ result = expansion env path ∧
    ¬ ContainsName result

/-- What follows a `$` that is not that of a variable does not, with the values put in, make
it one. -/
def NoneArises (env : Chars → Option Chars) (ps : List Piece) : Prop :=
  ∀ l r, ps = l ++ .char '$' :: r → nameAt ('$' :: r.flatMap (Piece.expand env)) = none

variable {special : Chars → Chars → Chars → Option Chars} {env : Chars → Option Chars}
  {name rest s t path env_val : Chars} {ps : List Piece}

/-! ## Matches -/

theorem takeWhile_brace (h : '}' ∉ name) (rest : Chars) :
    (name ++ '}' :: rest).takeWhile (· != '}') = name ∧
      (name ++ '}' :: rest).dropWhile (· != '}') = '}' :: rest := by
  have hname : ∀ c ∈ name, (c != '}') = true := fun c hc => by
    simpa using fun he : c = '}' => h (he ▸ hc)
  constructor
  · rw [List.takeWhile_append_of_pos hname]
    simp
  · rw [List.dropWhile_append_of_pos hname]
    simp

theorem matchVariable_eq_some : matchVariable s = some (name, rest) ↔
    s = occurrence name ++ rest ∧ name ≠ [] ∧ '}' ∉ name := by
  constructor
  · intro h
    unfold matchVariable at h
    split at h
    · rename_i s
      split at h
      · rename_i c name' b rest' htake hdrop
        cases h
        have hb : b = '}' := by
          have hhead := List.head?_dropWhile_not (· != '}') s
          rw [hdrop] at hhead
          simpa using hhead
        have happ := List.takeWhile_append_dropWhile (p := (· != '}')) (l := s)
        rw [htake, hdrop, hb] at happ
        refine ⟨by simp [occurrence, ← happ], List.cons_ne_nil _ _, fun hmem => ?_⟩
        rw [← htake] at hmem
        simpa using List.mem_takeWhile_imp hmem
      · cases h
    · cases h
  · rintro ⟨rfl, hne, hmem⟩
    obtain ⟨htake, hdrop⟩ := takeWhile_brace hmem rest
    obtain ⟨c, name, rfl⟩ := List.exists_cons_of_ne_nil hne
    simp only [occurrence, List.cons_append, List.append_assoc, List.nil_append] at htake hdrop ⊢
    simp only [matchVariable, htake, hdrop]

theorem nameAt_eq_some : nameAt s = some (name, rest) ↔
    s = occurrence name ++ rest ∧ name ≠ [] ∧ name.all isWord = true := by
  rw [nameAt, Option.filter_eq_some_iff, matchVariable_eq_some]
  constructor
  · rintro ⟨⟨rfl, hne, -⟩, hall⟩
    exact ⟨rfl, hne, hall⟩
  · rintro ⟨rfl, hne, hall⟩
    refine ⟨⟨rfl, hne, fun hmem => ?_⟩, hall⟩
    exact absurd (List.all_eq_true.mp hall _ hmem) (by decide)

theorem nameAt_of_ne {c : Char} (h : c ≠ '$') (s : Chars) : nameAt (c :: s) = none := by
  rw [Option.eq_none_iff_forall_ne_some]
  rintro ⟨name, rest⟩ he
  exact h (List.cons.inj (nameAt_eq_some.mp he).1).1

/-! ## Pieces -/

structure IsName (name : Chars) : Prop where
  ne_nil : name ≠ []
  words : name.all isWord = true

theorem IsName.not_mem (h : IsName name) {c : Char} (hc : isWord c = false) : c ∉ name :=
  fun hmem => by rw [List.all_eq_true.mp h.words c hmem] at hc; cases hc

theorem IsName.nameAt (h : IsName name) (rest : Chars) :
    nameAt (occurrence name ++ rest) = some (name, rest) :=
  nameAt_eq_some.mpr ⟨rfl, h.ne_nil, h.words⟩

/-- After its `$` a variable has none. -/
theorem IsName.dollar (h : IsName name) : '$' ∉ '{' :: (name ++ ['}']) := by
  have hmem := h.not_mem (c := '$') (by decide)
  simp [hmem]

theorem piecesFrom_skip (s t : Chars) : piecesFrom s.length (s ++ t) = pieces t := by
  induction s with
  | nil => rfl
  | cons c s ih => exact ih

theorem pieces_occurrence (h : IsName name) (rest : Chars) :
    pieces (occurrence name ++ rest) = .var name :: pieces rest := by
  have hname := h.nameAt rest
  have hskip := piecesFrom_skip ('{' :: (name ++ ['}'])) rest
  rw [List.length_cons, List.length_append, List.length_singleton] at hskip
  rw [occurrence, List.cons_append] at hname ⊢
  rw [pieces, piecesFrom, hname]
  exact congrArg _ hskip

theorem pieces_cons {c : Char} (h : nameAt (c :: s) = none) :
    pieces (c :: s) = .char c :: pieces s := by
  rw [pieces, piecesFrom, h]
  rfl

/-- By the pieces of a path. -/
theorem pieces_induction {P : Chars → Prop} (nil : P [])
    (var : ∀ name rest, IsName name → P rest → P (occurrence name ++ rest))
    (char : ∀ c s, nameAt (c :: s) = none → P s → P (c :: s)) (path : Chars) : P path := by
  induction hn : path.length using Nat.strong_induction_on generalizing path with
  | _ n ih =>
    cases path with
    | nil => exact nil
    | cons c s =>
      cases hname : nameAt (c :: s) with
      | none => exact char c s hname (ih _ (by simp at hn; omega) s rfl)
      | some p =>
        obtain ⟨name, rest⟩ := p
        obtain ⟨he, hne, hall⟩ := nameAt_eq_some.mp hname
        rw [he] at hn ⊢
        refine var name rest ⟨hne, hall⟩ (ih _ ?_ rest rfl)
        simp [occurrence] at hn
        omega

def Piece.render : Piece → Chars
  | .char c => [c]
  | .var name => occurrence name

theorem render_pieces (path : Chars) : (pieces path).flatMap Piece.render = path := by
  induction path using pieces_induction with
  | nil => rfl
  | var name rest h ih =>
    rw [pieces_occurrence h, List.flatMap_cons, ih]
    rfl
  | char c s h ih =>
    rw [pieces_cons h, List.flatMap_cons, ih]
    rfl

/-- The variable `name` is put in, and no other. -/
def Piece.subst (name env_val : Chars) : Piece → Chars
  | .char c => [c]
  | .var other => if other = name then env_val else occurrence other

theorem replaceFrom_skip (name env_val s t : Chars) :
    replaceFrom name env_val s.length (s ++ t) = replaceFrom name env_val 0 t := by
  induction s with
  | nil => rfl
  | cons c s ih => exact ih

/-- A name at the start of a text is the only one there. -/
theorem isPrefixOf_iff (h : IsName name) :
    (occurrence name).isPrefixOf s = true ↔ ∃ rest, nameAt s = some (name, rest) := by
  rw [List.isPrefixOf_iff_prefix]
  constructor
  · rintro ⟨rest, rfl⟩
    exact ⟨rest, h.nameAt rest⟩
  · rintro ⟨rest, he⟩
    exact ⟨rest, (nameAt_eq_some.mp he).1.symm⟩

theorem replaceFrom_match (name env_val rest : Chars) :
    replaceFrom name env_val 0 (occurrence name ++ rest) =
      env_val ++ replaceFrom name env_val 0 rest := by
  have hpre : (occurrence name).isPrefixOf (occurrence name ++ rest) = true :=
    List.isPrefixOf_iff_prefix.mpr (List.prefix_append _ _)
  have hskip := replaceFrom_skip name env_val ('{' :: (name ++ ['}'])) rest
  rw [List.length_cons, List.length_append, List.length_singleton] at hskip
  have hcons : occurrence name ++ rest = '$' :: ('{' :: (name ++ ['}']) ++ rest) := rfl
  rw [hcons] at hpre ⊢
  rw [replaceFrom, if_pos hpre]
  exact congrArg _ hskip

theorem replaceFrom_cons {c : Char} (h : ¬ (occurrence name).isPrefixOf (c :: s) = true) :
    replaceFrom name env_val 0 (c :: s) = c :: replaceFrom name env_val 0 s := by
  rw [replaceFrom, if_neg h]

theorem replaceFrom_append (hs : '$' ∉ s) (t : Chars) :
    replaceFrom name env_val 0 (s ++ t) = s ++ replaceFrom name env_val 0 t := by
  induction s with
  | nil => rfl
  | cons c s ih =>
    have hc : c ≠ '$' := (List.ne_of_not_mem_cons hs).symm
    rw [List.cons_append, replaceFrom_cons, ih (List.not_mem_of_not_mem_cons hs)]
    · rfl
    · rw [List.isPrefixOf_iff_prefix]
      exact fun hpre => hc (List.cons_prefix_cons.mp hpre).1.symm

/-- A variable with another name is left. -/
theorem replaceFrom_occurrence {other : Chars} (h : IsName other)
    (hpre : ¬ (occurrence name).isPrefixOf (occurrence other ++ rest) = true) :
    replaceFrom name env_val 0 (occurrence other ++ rest) =
      occurrence other ++ replaceFrom name env_val 0 rest := by
  have hcons : occurrence other ++ rest = '$' :: ('{' :: (other ++ ['}']) ++ rest) := rfl
  rw [hcons] at hpre ⊢
  rw [replaceFrom_cons hpre, replaceFrom_append h.dollar]
  rfl

theorem replaceFrom_eq (h : IsName name) (env_val path : Chars) :
    replaceFrom name env_val 0 path = (pieces path).flatMap (Piece.subst name env_val) := by
  induction path using pieces_induction with
  | nil => rfl
  | var other rest hother ih =>
    rw [pieces_occurrence hother, List.flatMap_cons, ← ih, Piece.subst]
    split
    · rename_i heq
      rw [heq, replaceFrom_match]
    · rename_i hne
      refine replaceFrom_occurrence hother fun hpre => ?_
      obtain ⟨rest', he⟩ := (isPrefixOf_iff h).mp hpre
      rw [hother.nameAt rest] at he
      cases he
      exact hne rfl
  | char c s hname ih =>
    rw [pieces_cons hname, List.flatMap_cons, ← ih, replaceFrom_cons]
    · rfl
    · intro hpre
      obtain ⟨rest, he⟩ := (isPrefixOf_iff h).mp hpre
      rw [hname] at he
      cases he

theorem isLiteral_of_isWord {c : Char} (h : isWord c = true) : isLiteral c = true := by
  unfold isLiteral
  rw [Bool.not_eq_true', List.contains_eq_mem, decide_eq_false_iff_not]
  intro hmem
  have hall : ("^$\\.*+?()[]\x7b\x7d|\x00".toList.all fun c => !isWord c) = true := by decide
  simpa [h] using List.all_eq_true.mp hall c hmem

theorem regexReplace_eq (h : IsName name) (env_val path : Chars) :
    regexReplace special name env_val path =
      some ((pieces path).flatMap (Piece.subst name env_val)) := by
  have hall : name.all isLiteral = true :=
    List.all_eq_true.mpr fun c hc => isLiteral_of_isWord (List.all_eq_true.mp h.words c hc)
  rw [regexReplace, if_pos hall, replaceFrom_eq h]

/-! ## The search -/

def Piece.name? : Piece → Option Chars
  | .char _ => none
  | .var name => some name

theorem regexSearch_of_none {c : Char} (h : matchVariable (c :: s) = none) :
    regexSearch (c :: s) = regexSearch s := by
  rw [regexSearch, h]

theorem regexSearch_of_some {c : Char} (h : matchVariable (c :: s) = some (name, rest)) :
    regexSearch (c :: s) = some name := by
  rw [regexSearch, h]

/-- It finds the first variable. -/
theorem regexSearch_eq (h : FindsName path) :
    regexSearch path = (pieces path).findSome? Piece.name? := by
  induction path using pieces_induction with
  | nil => rfl
  | var name rest hname ih =>
    have hmatch : matchVariable (occurrence name ++ rest) = some (name, rest) :=
      matchVariable_eq_some.mpr ⟨rfl, hname.ne_nil, hname.not_mem (by decide)⟩
    rw [pieces_occurrence hname]
    exact regexSearch_of_some hmatch
  | char c s hname ih =>
    have hmatch : matchVariable (c :: s) = none := by
      cases hm : matchVariable (c :: s) with
      | none => rfl
      | some p =>
        -- otherwise the search stops here, at something that is not a variable
        have hall := h p.1 (regexSearch_of_some hm)
        rw [nameAt, hm, Option.filter_some, if_pos hall] at hname
        cases hname
    have hrest := regexSearch_of_none hmatch
    rw [pieces_cons hname, hrest]
    refine ih fun name hmem => h name ?_
    rw [hrest]
    exact hmem

theorem isName_of_mem : Piece.var name ∈ pieces path → IsName name := by
  induction path using pieces_induction with
  | nil => exact fun h => nomatch h
  | var other rest hother ih =>
    rw [pieces_occurrence hother, List.mem_cons]
    rintro (he | hmem)
    · cases he
      exact hother
    · exact ih hmem
  | char c s hname ih =>
    rw [pieces_cons hname, List.mem_cons]
    rintro (he | hmem)
    · cases he
    · exact ih hmem

/-! ## Counting -/

/-- The values hold no `$`. -/
def NoDollar (env : Chars → Option Chars) : Prop := ∀ name, '$' ∉ getenv env name

theorem NoDollar.count_le (h : NoDollar env) (name : Chars) (ps : List Piece) :
    (ps.flatMap (Piece.expand env)).count '$' ≤
      (ps.flatMap (Piece.subst name (getenv env name))).count '$' := by
  induction ps with
  | nil => exact Nat.le_refl _
  | cons p ps ih =>
    rw [List.flatMap_cons, List.flatMap_cons, List.count_append, List.count_append]
    refine Nat.add_le_add ?_ ih
    cases p with
    | char c => exact Nat.le_refl _
    | var other =>
      rw [Piece.expand, List.count_eq_zero.mpr (h other)]
      exact Nat.zero_le _

/-- Another variable that is left makes one `$` more. -/
theorem NoDollar.count_lt (h : NoDollar env) {other : Chars} (hne : other ≠ name)
    (hmem : .var other ∈ ps) : (ps.flatMap (Piece.expand env)).count '$' <
      (ps.flatMap (Piece.subst name (getenv env name))).count '$' := by
  obtain ⟨l, r, rfl⟩ := List.append_of_mem hmem
  have hl := h.count_le name l
  have hr := h.count_le name r
  have hother : (getenv env other).count '$' = 0 := List.count_eq_zero.mpr (h other)
  have hocc : 0 < (occurrence other).count '$' := List.count_pos_iff.mpr List.mem_cons_self
  simp only [List.flatMap_append, List.flatMap_cons, List.count_append, Piece.expand, Piece.subst,
    if_neg hne]
  omega

/-- No two variables of a path are different. -/
def OneName (ps : List Piece) : Prop :=
  ∀ name ∈ ps.filterMap Piece.name?, ∀ other ∈ ps.filterMap Piece.name?, name = other

instance (ps : List Piece) : Decidable (OneName ps) :=
  inferInstanceAs (Decidable (∀ name ∈ _, ∀ other ∈ _, name = other))

theorem mem_names : name ∈ ps.filterMap Piece.name? ↔ .var name ∈ ps := by
  rw [List.mem_filterMap]
  constructor
  · rintro ⟨p, hp, he⟩
    cases p with
    | char c => cases he
    | var other =>
      cases he
      exact hp
  · exact fun h => ⟨_, h, rfl⟩

/-- One name is put in wherever it is. -/
theorem expandPath_eq_iff (hval : NoDollar env) (h : FindsName path) :
    expandPath special env path = some (expansion env path) ↔ OneName (pieces path) := by
  unfold expandPath expansion
  rw [regexSearch_eq h]
  cases hfirst : (pieces path).findSome? Piece.name? with
  | none =>
    have hnone : ∀ p ∈ pieces path, p.name? = none := List.findSome?_eq_none_iff.mp hfirst
    have hno : ∀ name, .var name ∉ pieces path := fun name hmem => by cases hnone _ hmem
    refine iff_of_true (congrArg some ?_) fun name hname =>
      absurd (mem_names.mp hname) (hno name)
    conv_lhs => rw [← render_pieces path]
    refine List.flatMap_congr fun p hp => ?_
    cases p with
    | char c => rfl
    | var name => exact absurd hp (hno name)
  | some name =>
    obtain ⟨p, hmem, hp⟩ := List.exists_of_findSome?_eq_some hfirst
    have hname : .var name ∈ pieces path := mem_names.mp (List.mem_filterMap.mpr ⟨p, hmem, hp⟩)
    dsimp only
    rw [regexReplace_eq (isName_of_mem hname), Option.some_inj]
    constructor
    · intro he
      have hall : ∀ other, .var other ∈ pieces path → other = name := by
        intro other hother
        by_contra hne
        have hlt := hval.count_lt hne hother
        rw [he] at hlt
        exact Nat.lt_irrefl _ hlt
      exact fun a ha b hb => (hall a (mem_names.mp ha)).trans (hall b (mem_names.mp hb)).symm
    · intro hone
      refine List.flatMap_congr fun p hp => ?_
      cases p with
      | char c => rfl
      | var other =>
        rw [Piece.subst, if_pos (hone other (mem_names.mpr hp) name (mem_names.mpr hname)),
          hone other (mem_names.mpr hp) name (mem_names.mpr hname), Piece.expand]

/-! ## Names that arise -/

theorem containsName_cons {c : Char} :
    ContainsName (c :: s) ↔ (nameAt (c :: s)).isSome ∨ ContainsName s := by
  constructor
  · rintro ⟨t, ht, hsome⟩
    rcases List.suffix_cons_iff.mp ht with rfl | ht
    · exact .inl hsome
    · exact .inr ⟨t, ht, hsome⟩
  · rintro (hsome | ⟨t, ht, hsome⟩)
    · exact ⟨_, List.suffix_refl _, hsome⟩
    · exact ⟨t, ht.trans (List.suffix_cons c s), hsome⟩

theorem containsName_append (h : '$' ∉ s) : ContainsName (s ++ t) ↔ ContainsName t := by
  induction s with
  | nil => rfl
  | cons c s ih =>
    have hc : c ≠ '$' := (List.ne_of_not_mem_cons h).symm
    rw [List.cons_append, containsName_cons, nameAt_of_ne hc,
      ih (List.not_mem_of_not_mem_cons h)]
    simp

theorem not_containsName_nil : ¬ ContainsName [] := by
  rintro ⟨t, ht, hsome⟩
  rw [List.suffix_nil.mp ht] at hsome
  cases hsome

theorem noneArises_cons {p : Piece} : NoneArises env (p :: ps) ↔
    (p = .char '$' → nameAt ('$' :: ps.flatMap (Piece.expand env)) = none) ∧
      NoneArises env ps := by
  constructor
  · refine fun h => ⟨fun hp => h [] ps (by rw [hp]; rfl), fun l r he => ?_⟩
    exact h (p :: l) r (by rw [he]; rfl)
  · rintro ⟨hhead, htail⟩ l r he
    cases l with
    | nil =>
      cases he
      exact hhead rfl
    | cons q l =>
      cases he
      exact htail l r rfl

/-- A name in what comes of the pieces starts with a `$` of theirs. -/
theorem containsName_iff (hval : NoDollar env) (ps : List Piece) :
    ¬ ContainsName (ps.flatMap (Piece.expand env)) ↔ NoneArises env ps := by
  induction ps with
  | nil =>
    refine iff_of_true not_containsName_nil fun l r he => ?_
    cases l <;> cases he
  | cons p ps ih =>
    rw [List.flatMap_cons, noneArises_cons, ← ih]
    cases p with
    | char c =>
      rw [Piece.expand, List.singleton_append, containsName_cons, not_or,
        Option.not_isSome_iff_eq_none]
      refine and_congr_left fun _ => ⟨fun h he => ?_, fun h => ?_⟩
      · cases he
        exact h
      · by_cases hc : c = '$'
        · subst hc
          exact h rfl
        · exact nameAt_of_ne hc _
    | var name =>
      rw [Piece.expand, containsName_append (hval name)]
      exact ⟨fun h => ⟨nofun, h⟩, fun h => h.2⟩

/-! ## Texts that are no names -/

/-- A text without a character that stands for something else, as the search finds it. -/
structure IsText (name : Chars) : Prop where
  ne_nil : name ≠ []
  literal : name.all isLiteral = true

theorem IsText.not_mem (h : IsText name) {c : Char} (hc : isLiteral c = false) : c ∉ name :=
  fun hmem => by rw [List.all_eq_true.mp h.literal c hmem] at hc; cases hc

theorem IsText.dollar (h : IsText name) : '$' ∉ '{' :: (name ++ ['}']) := by
  have hmem := h.not_mem (c := '$') (by decide)
  simp [hmem]

theorem IsText.matchVariable (h : IsText name) (rest : Chars) :
    matchVariable (occurrence name ++ rest) = some (name, rest) :=
  matchVariable_eq_some.mpr ⟨rfl, h.ne_nil, h.not_mem (by decide)⟩

/-- A value without `$` makes no more of them. -/
theorem count_replaceFrom_le (hval : '$' ∉ env_val) (k : ℕ) (s : Chars) :
    (replaceFrom name env_val k s).count '$' ≤ s.count '$' := by
  induction s generalizing k with
  | nil => simp [replaceFrom]
  | cons c s ih =>
    cases k with
    | succ k => exact (ih k).trans (List.count_le_count_cons)
    | zero =>
      rw [replaceFrom]
      split
      · rw [List.count_append, List.count_eq_zero.mpr hval, Nat.zero_add]
        exact (ih _).trans (List.count_le_count_cons)
      · rw [List.count_cons, List.count_cons]
        exact Nat.add_le_add_right (ih 0) _

/-- The `$` of what the search finds is gone. -/
theorem count_replaceFrom_lt (hval : '$' ∉ env_val)
    (hfind : regexSearch path = some name) :
    (replaceFrom name env_val 0 path).count '$' < path.count '$' := by
  induction path with
  | nil => cases hfind
  | cons c s ih =>
    by_cases hpre : (occurrence name).isPrefixOf (c :: s) = true
    · obtain ⟨rest, hrest⟩ := List.isPrefixOf_iff_prefix.mp hpre
      have hle : (replaceFrom name env_val 0 rest).count '$' ≤ rest.count '$' :=
        count_replaceFrom_le hval 0 rest
      have hocc : 0 < (occurrence name).count '$' := List.count_pos_iff.mpr List.mem_cons_self
      rw [← hrest, replaceFrom_match, List.count_append, List.count_append,
        List.count_eq_zero.mpr hval]
      omega
    · have hmatch : matchVariable (c :: s) = none := by
        cases hm : matchVariable (c :: s) with
        | none => rfl
        | some p =>
          obtain ⟨text, rest⟩ := p
          rw [regexSearch_of_some hm, Option.some_inj] at hfind
          rw [(matchVariable_eq_some.mp hm).1, hfind] at hpre
          exact absurd (List.isPrefixOf_iff_prefix.mpr (List.prefix_append _ _)) hpre
      rw [regexSearch_of_none hmatch] at hfind
      rw [replaceFrom_cons hpre, List.count_cons, List.count_cons]
      exact Nat.add_lt_add_right (ih hfind) _

theorem IsText.nameAt (h : IsText name) (hword : ¬ name.all isWord = true) (rest : Chars) :
    nameAt (occurrence name ++ rest) = none := by
  rw [ConfigParse.nameAt, h.matchVariable rest, Option.filter_some, if_neg hword]

/-- A name is still there after a text that is none is replaced. -/
theorem containsName_replaceFrom (h : IsText name) (hword : ¬ name.all isWord = true)
    (path : Chars) (hmem : ContainsName path) :
    ContainsName (replaceFrom name env_val 0 path) := by
  induction hn : path.length using Nat.strong_induction_on generalizing path with
  | _ n ih =>
    by_cases hpre : (occurrence name).isPrefixOf path = true
    · obtain ⟨rest, rfl⟩ := List.isPrefixOf_iff_prefix.mp hpre
      have hnone := h.nameAt hword rest
      -- within the text that is replaced there is no other `$`
      have hrest : ContainsName rest := by
        rw [occurrence, List.cons_append, containsName_cons, containsName_append h.dollar] at hmem
        rw [occurrence, List.cons_append] at hnone
        rcases hmem with hsome | hmem
        · rw [hnone] at hsome
          cases hsome
        · exact hmem
      have hlt : rest.length < n := by
        rw [← hn, List.length_append]
        simp [occurrence]
      obtain ⟨t, ht, hsome⟩ := ih _ hlt rest hrest rfl
      rw [replaceFrom_match]
      exact ⟨t, ht.trans (List.suffix_append _ _), hsome⟩
    · cases path with
      | nil => exact absurd hmem not_containsName_nil
      | cons c s =>
        rcases containsName_cons.mp hmem with hsome | hmem
        · obtain ⟨⟨other, rest⟩, hother⟩ := Option.isSome_iff_exists.mp hsome
          obtain ⟨he, hne, hall⟩ := nameAt_eq_some.mp hother
          rw [he] at hpre ⊢
          have hname : IsName other := ⟨hne, hall⟩
          rw [replaceFrom_occurrence hname hpre]
          refine ⟨_, List.suffix_refl _, ?_⟩
          rw [hname.nameAt]
          rfl
        · rw [replaceFrom_cons hpre, containsName_cons]
          exact .inr (ih s.length (by rw [← hn]; exact Nat.lt_succ_self _) s hmem rfl)

/-- Without a name in it a path is its own expansion. -/
theorem expansion_of_not_containsName (h : ¬ ContainsName path) : expansion env path = path := by
  unfold expansion
  induction path using pieces_induction with
  | nil => rfl
  | var name rest hname ih =>
    refine absurd ⟨_, List.suffix_refl _, ?_⟩ h
    rw [hname.nameAt]
    rfl
  | char c s hnone ih =>
    rw [containsName_cons, not_or] at h
    rw [pieces_cons hnone, List.flatMap_cons, ih h.2]
    rfl

/-- Where the first text that the search finds is none, it is replaced or a variable is left. -/
theorem not_expands_of_text (hval : NoDollar env) (hfind : regexSearch path = some name)
    (h : IsText name) (hword : ¬ name.all isWord = true) : ¬ Expands special env path := by
  rintro ⟨result, hres, heq, hnone⟩
  have hpath : result = replaceFrom name (getenv env name) 0 path := by
    rw [expandPath, hfind] at hres
    dsimp only at hres
    rw [regexReplace, if_pos h.literal] at hres
    exact (Option.some.inj hres).symm
  have hno : ¬ ContainsName path := fun hmem =>
    hnone (hpath ▸ containsName_replaceFrom h hword path hmem)
  have hlt := count_replaceFrom_lt (hval name) hfind
  rw [← hpath, heq, expansion_of_not_containsName hno] at hlt
  exact Nat.lt_irrefl _ hlt

theorem ne_nil_of_regexSearch (h : regexSearch path = some name) : name ≠ [] := by
  induction path with
  | nil => cases h
  | cons c s ih =>
    cases hm : matchVariable (c :: s) with
    | none => exact ih (regexSearch_of_none hm ▸ h)
    | some p =>
      obtain ⟨text, rest⟩ := p
      rw [regexSearch_of_some hm] at h
      cases h
      exact (matchVariable_eq_some.mp hm).2.1

/-- What the search finds stands for itself. -/
def FindsText (path : Chars) : Prop := ∀ name ∈ regexSearch path, name.all isLiteral = true

/-- **One name is expanded.** The variables of a path are all put in where the search finds one of
them and they have one name between them; and none are left then unless a `$` of the path makes
one with what follows it. Nowhere else are they, unless what is found is an expression of its
own. -/
theorem expandPath_expands_iff (special : Chars → Chars → Chars → Option Chars)
    (env : Chars → Option Chars) (path : Chars) (hval : NoDollar env) :
    (FindsName path ∧ OneName (pieces path) ∧ NoneArises env (pieces path) →
        Expands special env path) ∧
      (FindsText path → Expands special env path →
        FindsName path ∧ OneName (pieces path) ∧ NoneArises env (pieces path)) := by
  constructor
  · rintro ⟨hfinds, hone, hnone⟩
    exact ⟨_, (expandPath_eq_iff hval hfinds).mpr hone, rfl, (containsName_iff hval _).mpr hnone⟩
  · intro htext hexp
    have hfinds : FindsName path := by
      intro name hfind
      by_contra hword
      exact not_expands_of_text hval hfind ⟨ne_nil_of_regexSearch hfind, htext name hfind⟩ hword
        hexp
    obtain ⟨result, hres, rfl, hnone⟩ := hexp
    exact ⟨hfinds, (expandPath_eq_iff hval hfinds).mp hres, (containsName_iff hval _).mp hnone⟩

theorem expands_twice : Expands (fun _ _ _ => none) (fun _ => some "home".toList)
    "/$\x7bUSER\x7d/a/$\x7bUSER\x7d".toList := by
  refine (expandPath_expands_iff _ _ _ fun _ => ?_).1 ⟨by decide, by decide, fun l r he => ?_⟩
  · change '$' ∉ "home".toList
    decide
  · have hmem : .char '$' ∈ pieces "/$\x7bUSER\x7d/a/$\x7bUSER\x7d".toList := by
      rw [he]
      exact List.mem_append_right _ List.mem_cons_self
    exact absurd hmem (by decide)

/-- The second name is left; and so is a name behind a text that is none. -/
theorem not_expands_two :
    (¬ Expands (fun _ _ _ => none) (fun name => some (if name = "A".toList then "x".toList else
      "y".toList)) "$\x7bA\x7d$\x7bB\x7d".toList) ∧
    ¬ Expands (fun _ _ _ => none) (fun _ => some "x".toList)
      "$\x7bB-C\x7d$\x7bA\x7d".toList := by
  constructor
  · rintro ⟨result, hres, rfl, -⟩
    exact absurd hres (by decide)
  · rintro ⟨result, hres, rfl, -⟩
    exact absurd hres (by decide)

end HermesShm.Util.ConfigParse
