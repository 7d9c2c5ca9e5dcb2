import HermesShm.Ipc.FixedString
import HermesShm.Serialization.RoundTrip

/-! # Runs of `chararr_templ`

Constructions, assignments, resizes and loads of any number of strings of one type,
against a text for each of them. -/
namespace HermesShm.Ipc.FixedString
open HermesShm.Base HermesShm.Serialization HermesShm.Ipc.StringCompare

variable {p : Params}

/-! ## Loading -/

/-- `load_string`: the archive gives the length, and the length the string then has says how
much is read. -/
def Chararr.load (text : Chararr p) : Reader (Chararr p) := do
  let size ← loadSize
  let text := text.resize (.ofNat size)
  let bytes ← Reader.take text.size
  fun _ off => (memcpy text.buf_ bytes text.size).map fun buf_ => ({ text with buf_ }, off)

/-- What `save_string` leaves in an archive. -/
def saved (text : Text) : List UInt8 := Atom.string.bytes text.data

theorem load_eq (c : Chararr p) (text : Text) (before after : List UInt8) :
    c.load (before ++ saved text ++ after) before.length =
      let c₁ := c.setLength text.data.length
      (Reader.take c₁.size (before ++ saved text ++ after) (before.length + 8)).bind fun bytes =>
        (memcpy c.buf_ bytes.1 c₁.size).map fun buf_ => ({ c₁ with buf_ }, bytes.2) := by
  obtain ⟨size, hload, rfl⟩ := loadSize_yields text.length_lt before (text.data ++ after)
  rw [length_toBytes] at hload
  have hdata : before ++ saved text ++ after =
      before ++ toBytes 8 text.data.length ++ (text.data ++ after) := by
    rw [saved, Atom.bytes]
    simp only [List.append_assoc]
  have hsize : c.resize (.ofNat text.data.length) = c.setLength text.data.length := by
    rw [Chararr.resize, UInt64.toNat_ofNat_of_lt' text.length_lt]
  rw [Chararr.load, Reader.bind_apply, hdata, hload, Option.bind_some, Reader.bind_apply, hsize]
  rfl

/-- A part of the text is what is read behind its length. -/
theorem take_saved {text : Text} {n : Nat} (hn : n ≤ text.data.length) (before after : List UInt8) :
    Reader.take n (before ++ saved text ++ after) (before.length + 8) =
      some (text.data.take n, before.length + 8 + n) := by
  obtain ⟨bytes, htake, rfl⟩ := Reader.yields_take (text.data.take n)
    (before ++ toBytes 8 text.data.length) (text.data.drop n ++ after)
  rw [List.length_append, length_toBytes, List.length_take, Nat.min_eq_left hn] at htake
  rw [← htake, saved, Atom.bytes]
  congr 1
  simp only [List.append_assoc, List.append_cancel_left_eq]
  rw [← List.append_assoc (text.data.take n), List.take_append_drop]

/-- The terminator is not written: it has to be there. -/
theorem load_iff (c : Chararr p) (text : Text) (before after : List UInt8) :
    (∃ r, c.load (before ++ saved text ++ after) before.length = some r ∧
        Holds r.1 (p.clamp text.data)) ↔
      p.Keeps text.data.length ∧
        (p.WithNull = true → c.buf_[min text.data.length p.LENGTH]? = some 0) := by
  have htext := Chararr.length_clamp p text.data
  rw [load_eq]
  constructor
  · rintro ⟨r, hr, hholds⟩
    obtain ⟨bytes, -, hr⟩ := Option.bind_eq_some_iff.mp hr
    obtain ⟨buf_, hbuf, rfl⟩ := Option.map_eq_some_iff.mp hr
    have hkeeps : p.Keeps text.data.length := by
      rw [← Chararr.toInt_ofNat_eq_iff, ← htext, ← hholds.length_]
      rfl
    refine ⟨hkeeps, fun hnull => ?_⟩
    have hsize : (c.setLength text.data.length).size = min text.data.length p.LENGTH :=
      Chararr.size_of_length (Chararr.toInt_ofNat_eq_iff.mpr hkeeps) (Nat.min_le_right ..)
    rw [← (memcpy_eq_some hbuf).2.2 _ (Nat.le_of_eq hsize), ← htext]
    exact hholds.null hnull
  · rintro ⟨hkeeps, hnull⟩
    have hlength : (c.setLength text.data.length).length_.toInt =
        (min text.data.length p.LENGTH : Nat) := Chararr.toInt_ofNat_eq_iff.mpr hkeeps
    dsimp only
    rw [Chararr.size_of_length hlength (Nat.min_le_right ..),
      take_saved (Nat.min_le_left ..), Option.bind_some]
    have hfull : min text.data.length p.LENGTH ≤ p.FULL_LENGTH := by
      rw [Params.FULL_LENGTH]
      omega
    obtain ⟨buf_, hbuf⟩ : ∃ buf_, memcpy c.buf_ (text.data.take (min text.data.length p.LENGTH))
        (min text.data.length p.LENGTH) = some buf_ := memcpy_isSome hfull
    obtain ⟨-, hchar, hrest⟩ := memcpy_eq_some hbuf
    rw [hbuf]
    refine ⟨_, rfl, ?_, ?_, fun k b hk => ?_, fun hp => ?_⟩
    · rw [htext]
      exact hlength
    · rw [htext]
      exact Nat.min_le_right ..
    · have hlt := (List.getElem?_eq_some_iff.mp hk).1
      rw [htext] at hlt
      refine (hchar k hlt ?_).trans ?_
      · rw [List.length_take]
        omega
      · rw [List.getElem?_take_of_lt hlt]
        exact Chararr.clamp_getElem? hk
    · rw [htext, hrest _ le_rfl]
      exact hnull hp

/-! ## Operations -/

/-- The operations on strings with numbers. A load reads what was saved of a text, wherever in
an archive. -/
inductive Op
  | ofCStr (i : Nat) (data : Text)
  | ofSized (i : Nat) (data : Text)
  | ofString (i : Nat) (data : Text)
  | ofSize (i : Nat) (size : UInt64)
  | copy (i other : Nat)
  | move (i other : Nat)
  | copyAssign (i other : Nat)
  | moveAssign (i other : Nat)
  | resize (i : Nat) (new_size : UInt64)
  | load (i : Nat) (before : List UInt8) (text : Text) (after : List UInt8)

namespace Op

/-- The string that the operation is on. -/
def target : Op → Nat
  | ofCStr i _ | ofSized i _ | ofString i _ | ofSize i _ | copy i _ | move i _ | copyAssign i _
  | moveAssign i _ | resize i _ | load i _ _ _ => i

/-- What becomes of it; memory that no string is in yet holds any bytes. -/
def run (m : Nat → Chararr p) : Op → Option (Chararr p)
  | ofCStr i data => (m i).ofCStr data
  | ofSized i data => (m i).ofSized data
  | ofString i data => (m i).ofString data
  | ofSize i size => some ((m i).ofSize size)
  | copy i other => (m i).copy (m other)
  | move i other => (m i).move (m other)
  | copyAssign i other => if i = other then some (m i) else (m i).copyAssign (m other)
  | moveAssign i other => if i = other then some (m i) else (m i).moveAssign (m other)
  | resize i new_size => some ((m i).resize new_size)
  | load i before text after =>
    ((m i).load (before ++ saved text ++ after) before.length).map Prod.fst

/-- The texts, each of at most `LENGTH` characters, of the strings there are. -/
abbrev Texts := Nat → Option (List (Option UInt8))

/-- What the string is to hold. -/
def text (p : Params) (σ : Texts) : Op → List (Option UInt8)
  | ofCStr _ data => p.clamp (data.data.takeWhile (· ≠ 0))
  | ofSized _ data | ofString _ data => p.clamp data.data
  | ofSize _ size => p.resized [] size.toNat
  | copy _ other | move _ other | copyAssign _ other | moveAssign _ other => (σ other).getD []
  | resize i new_size => p.resized ((σ i).getD []) new_size.toNat
  | load _ _ text _ => p.clamp text.data

/-- A constructor is for fresh memory; all other strings of an operation are there. -/
def Legal (σ : Texts) : Op → Prop
  | ofCStr i _ | ofSized i _ | ofString i _ | ofSize i _ => σ i = none
  | copy i other | move i other => σ i = none ∧ (σ other).isSome
  | copyAssign i other | moveAssign i other => (σ i).isSome ∧ (σ other).isSome
  | resize i _ | load i _ _ _ => (σ i).isSome

/-- The length is kept, and where no terminator is written there is one. -/
def Terminated (c : Chararr p) (n : Nat) : Prop :=
  p.Keeps n ∧ (p.WithNull = true → c.buf_[min n p.LENGTH]? = some 0)

def Fits (m : Nat → Chararr p) : Op → Prop
  | ofCStr _ _ | copy _ _ | move _ _ | copyAssign _ _ | moveAssign _ _ => True
  | ofSized _ data => data.data.length ≤ p.LENGTH
  | ofString _ data => p.Keeps data.data.length
  | ofSize i size => Terminated (m i) size.toNat
  | resize i new_size => Terminated (m i) new_size.toNat
  | load i _ text _ => Terminated (m i) text.data.length

end Op

/-- Every string there is holds its text. -/
def Represents (m : Nat → Chararr p) (σ : Op.Texts) : Prop :=
  ∀ i text, σ i = some text → Holds (m i) text

/-- An operation gives what it should exactly where it fits. -/
theorem Op.run_iff {m : Nat → Chararr p} {σ : Op.Texts} {op : Op} (hm : Represents m σ)
    (hlegal : op.Legal σ) :
    (∃ c, op.run m = some c ∧ Holds c (op.text p σ)) ↔ op.Fits m := by
  have live : ∀ {i}, (σ i).isSome → Holds (m i) ((σ i).getD []) := by
    intro i hi
    obtain ⟨text, htext⟩ := Option.isSome_iff_exists.mp hi
    rw [htext]
    exact hm i text htext
  have assigned : ∀ {i other r}, (σ i).isSome →
      (∃ c, r = some c ∧ Holds c ((σ other).getD [])) →
      ∃ c, (if i = other then some (m i) else r) = some c ∧ Holds c ((σ other).getD []) := by
    intro i other r hi hr
    split
    next heq => exact ⟨_, rfl, heq ▸ live hi⟩
    next => exact hr
  cases op with
  | ofCStr i data => exact iff_of_true (Chararr.ofCStr_holds (m i) data) trivial
  | ofSized i data => exact Chararr.ofSized_iff (m i) data
  | ofString i data => exact Chararr.ofString_iff (m i) data
  | ofSize i size =>
    simp only [Op.run, Option.some.injEq, exists_eq_left']
    exact Chararr.setLength_iff (fun k b hk => by cases hk) _
  | copy i other =>
    have hother := live hlegal.2
    exact iff_of_true (Chararr.copyFrom_holds hother hother.ofNat_size (m i)) trivial
  | move i other =>
    have hother := live hlegal.2
    exact iff_of_true (Chararr.copyFrom_holds hother hother.length_ (m i)) trivial
  | copyAssign i other =>
    have hother := live hlegal.2
    have hcopy := Chararr.copyFrom_holds hother hother.ofNat_size (m i)
    exact iff_of_true (assigned hlegal.1 hcopy) trivial
  | moveAssign i other =>
    have hother := live hlegal.2
    have hmove := Chararr.copyFrom_holds hother hother.length_ (m i)
    exact iff_of_true (assigned hlegal.1 hmove) trivial
  | resize i new_size =>
    simp only [Op.run, Option.some.injEq, exists_eq_left']
    exact Chararr.setLength_iff (live hlegal).char _
  | load i before text after =>
    rw [Op.Fits, Op.Terminated, ← load_iff (m i) text before after]
    constructor
    · rintro ⟨c, hc, hholds⟩
      obtain ⟨r, hr, rfl⟩ := Option.map_eq_some_iff.mp hc
      exact ⟨r, hr, hholds⟩
    · rintro ⟨r, hr, hholds⟩
      exact ⟨r.1, congrArg (Option.map Prod.fst) hr, hholds⟩

/-! ## Runs -/

def Op.step (m : Nat → Chararr p) (op : Op) : Option (Nat → Chararr p) :=
  (op.run m).map (Function.update m op.target)

def Op.after (p : Params) (σ : Op.Texts) (op : Op) : Op.Texts :=
  Function.update σ op.target (some (op.text p σ))

theorem Op.step_iff {m : Nat → Chararr p} {σ : Op.Texts} {op : Op} (hm : Represents m σ)
    (hlegal : op.Legal σ) :
    (∃ m', op.step m = some m' ∧ Represents m' (op.after p σ)) ↔ op.Fits m := by
  rw [← Op.run_iff hm hlegal]
  constructor
  · rintro ⟨m', hstep, hm'⟩
    obtain ⟨c, hc, rfl⟩ := Option.map_eq_some_iff.mp hstep
    refine ⟨c, hc, ?_⟩
    have := hm' op.target (op.text p σ) (Function.update_self ..)
    rwa [Function.update_self] at this
  · rintro ⟨c, hc, hholds⟩
    refine ⟨_, congrArg (Option.map _) hc, fun i text htext => ?_⟩
    by_cases hi : i = op.target
    · rw [Op.after, hi, Function.update_self] at htext
      rw [hi, Function.update_self, ← Option.some.inj htext]
      exact hholds
    · rw [Op.after, Function.update_of_ne hi] at htext
      rw [Function.update_of_ne hi]
      exact hm i text htext

/-- The constructors and the operations come in an order the strings allow. -/
def Legal (p : Params) : Op.Texts → List Op → Prop
  | _, [] => True
  | σ, op :: ops => op.Legal σ ∧ Legal p (op.after p σ) ops

/-- No operation goes out of a buffer, and every string then holds its text, at most `LENGTH`
characters, with the terminator behind them. -/
def Sound : (Nat → Chararr p) → Op.Texts → List Op → Prop
  | _, _, [] => True
  | m, σ, op :: ops =>
    ∃ m', op.step m = some m' ∧ Represents m' (op.after p σ) ∧ Sound m' (op.after p σ) ops

def AllFit : (Nat → Chararr p) → List Op → Prop
  | _, [] => True
  | m, op :: ops => op.Fits m ∧ ∀ m', op.step m = some m' → AllFit m' ops

theorem sound_iff_of_represents {m : Nat → Chararr p} {σ : Op.Texts} {ops : List Op}
    (hm : Represents m σ) (h : Legal p σ ops) : Sound m σ ops ↔ AllFit m ops := by
  induction ops generalizing m σ with
  | nil => exact Iff.rfl
  | cons op ops ih =>
    rw [Sound, AllFit, ← Op.step_iff hm h.1]
    constructor
    · rintro ⟨m', hstep, hm', hrest⟩
      refine ⟨⟨m', hstep, hm'⟩, fun m'' hstep' => ?_⟩
      rw [← Option.some.inj (hstep.symm.trans hstep')]
      exact (ih hm' h.2).mp hrest
    · rintro ⟨⟨m', hstep, hm'⟩, hrest⟩
      exact ⟨m', hstep, hm', (ih hm' h.2).mpr (hrest m' hstep)⟩

/-- From the first construction on. -/
theorem holds_text_iff (m : Nat → Chararr p) (ops : List Op) (h : Legal p (fun _ => none) ops) :
    Sound m (fun _ => none) ops ↔ AllFit m ops := by
  refine sound_iff_of_represents (fun i text htext => ?_) h
  cases htext

/-- Memory of zeros. -/
def zeros (p : Params) (_ : Nat) : Chararr p := ⟨Vector.replicate _ 0, 0⟩

def two : Params := ⟨2, true, by decide⟩

theorem holds_text_iff_copy :
    Sound (zeros two) (fun _ => none) [.ofSized 0 ⟨[97, 98], by decide⟩, .copy 1 0] := by
  refine (holds_text_iff (zeros two) _ ?_).mpr ⟨?_, fun _ _ => ⟨trivial, fun _ _ => trivial⟩⟩
  · exact ⟨rfl, ⟨rfl, rfl⟩, trivial⟩
  · exact Nat.le_refl 2

/-- The terminator of three characters is written behind the buffer. -/
theorem clamp_overwritten :
    ¬ ∀ (p : Params) (m : Nat → Chararr p) (ops : List Op), Legal p (fun _ => none) ops →
      Sound m (fun _ => none) ops := by
  intro h
  obtain ⟨m', hstep, -⟩ :=
    h two (zeros two) [.ofSized 0 ⟨[97, 98, 99], by decide⟩] ⟨rfl, trivial⟩
  have hnone : (zeros two 0).ofSized ⟨[97, 98, 99], by decide⟩ = none := rfl
  obtain ⟨c, hc, -⟩ := Option.map_eq_some_iff.mp hstep
  cases hnone.symm.trans hc

end HermesShm.Ipc.FixedString
