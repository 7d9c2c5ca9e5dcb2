import Mathlib.Algebra.Group.Nat.Defs
import Mathlib.Data.List.Forall2
import Mathlib.Tactic.Common

/-! # Readers of a buffer of bytes

A reader starts at an offset of a buffer and moves it. It yields `P` on `bytes`
when, wherever these bytes stand in a buffer, it consumes just them and returns
a value with `P`; it does so unless `D` when it fails only where `D` holds. -/
namespace HermesShm.Base

/-! ## Numbers -/

/-- The `w` lowest bytes of a number, the least significant first. -/
def toBytes : Nat → Nat → List UInt8
  | 0, _ => []
  | w + 1, n => UInt8.ofNat n :: toBytes w (n / 256)

def ofBytes : List UInt8 → Nat
  | [] => 0
  | b :: bs => b.toNat + 256 * ofBytes bs

@[simp] theorem length_toBytes (w n : Nat) : (toBytes w n).length = w := by
  induction w generalizing n with
  | zero => rfl
  | succ w ih => rw [toBytes, List.length_cons, ih]

theorem ofBytes_toBytes {w n : Nat} (h : n < 256 ^ w) : ofBytes (toBytes w n) = n := by
  induction w generalizing n with
  | zero => rw [Nat.pow_zero, Nat.lt_one_iff] at h; rw [h]; rfl
  | succ w ih =>
    have hdiv : n / 256 < 256 ^ w := Nat.div_lt_of_lt_mul (by rwa [Nat.pow_succ'] at h)
    rw [toBytes, ofBytes, ih hdiv, UInt8.toNat_ofNat']
    exact Nat.mod_add_div n 256

/-! ## Readers -/

abbrev Reader (α : Type) := ReaderT (List UInt8) (StateT Nat Option) α

namespace Reader

variable {α β σ ι : Type}

theorem bind_apply (r : Reader α) (f : α → Reader β) (data : List UInt8) (off : Nat) :
    (r >>= f) data off = (r data off).bind fun p => f p.1 data p.2 := rfl

/-- The next `n` bytes. -/
def take (n : Nat) : Reader (List UInt8) := fun data off =>
  if off + n ≤ data.length then some ((data.drop off).take n, off + n) else none

def Yields (r : Reader α) (bytes : List UInt8) (P : α → Prop) : Prop :=
  ∀ before after, ∃ a,
    r (before ++ bytes ++ after) before.length = some (a, before.length + bytes.length) ∧ P a

variable {r : Reader α} {f : α → Reader β} {bytes bytes' : List UInt8} {P : α → Prop}
  {Q : β → Prop}

theorem Yields.mono {P' : α → Prop} (h : Yields r bytes P) (hp : ∀ a, P a → P' a) :
    Yields r bytes P' := by
  intro before after
  obtain ⟨a, hr, ha⟩ := h before after
  exact ⟨a, hr, hp a ha⟩

theorem yields_pure {a : α} (ha : P a) : Yields (pure a) [] P := fun _ _ => ⟨a, rfl, ha⟩

/-- The reader yields `P`, or it fails and `D` holds. -/
def YieldsUnless (D : Prop) (r : Reader α) (bytes : List UInt8) (P : α → Prop) : Prop :=
  ∀ before after, r (before ++ bytes ++ after) before.length = none ∧ D ∨ ∃ a,
    r (before ++ bytes ++ after) before.length = some (a, before.length + bytes.length) ∧ P a

variable {D : Prop}

theorem Yields.unless (h : Yields r bytes P) : YieldsUnless D r bytes P :=
  fun before after => .inr (h before after)

theorem YieldsUnless.yields (h : YieldsUnless D r bytes P) (hd : ¬ D) : Yields r bytes P :=
  fun before after => (h before after).resolve_left fun hn => hd hn.2

theorem YieldsUnless.mono {P' : α → Prop} (h : YieldsUnless D r bytes P) (hp : ∀ a, P a → P' a) :
    YieldsUnless D r bytes P' := by
  intro before after
  rcases h before after with hn | ⟨a, hr, ha⟩
  · exact .inl hn
  · exact .inr ⟨a, hr, hp a ha⟩

theorem Yields.bindUnless (h : Yields r bytes P) (hf : ∀ a, P a → YieldsUnless D (f a) bytes' Q) :
    YieldsUnless D (r >>= f) (bytes ++ bytes') Q := by
  intro before after
  obtain ⟨a, hr, ha⟩ := h before (bytes' ++ after)
  have hdata : before ++ (bytes ++ bytes') ++ after = before ++ bytes ++ (bytes' ++ after) := by
    simp only [List.append_assoc]
  have hdata' : before ++ (bytes ++ bytes') ++ after = before ++ bytes ++ bytes' ++ after := by
    simp only [List.append_assoc]
  have hbind : (r >>= f) (before ++ (bytes ++ bytes') ++ after) before.length =
      f a (before ++ bytes ++ bytes' ++ after) (before ++ bytes).length := by
    rw [bind_apply, hdata, hr, Option.bind_some, ← hdata, hdata', ← List.length_append]
  rw [hbind]
  rcases hf a ha (before ++ bytes) after with hn | ⟨b, hb, hq⟩
  · exact .inl hn
  · refine .inr ⟨b, ?_, hq⟩
    rw [hb]
    simp only [List.length_append, Nat.add_assoc]

/-- **Sequencing.** The second reader goes on where the first one stops. -/
theorem Yields.bind (h : Yields r bytes P) (hf : ∀ a, P a → Yields (f a) bytes' Q) :
    Yields (r >>= f) (bytes ++ bytes') Q :=
  (h.bindUnless (D := False) fun a ha => (hf a ha).unless).yields id

theorem Yields.map {g : α → β} (h : Yields r bytes P) (hg : ∀ a, P a → Q (g a)) :
    Yields (r >>= fun a => pure (g a)) bytes Q := by
  rw [← List.append_nil bytes]
  exact h.bind fun a ha => yields_pure (hg a ha)

theorem yields_take (bytes : List UInt8) : Yields (take bytes.length) bytes (· = bytes) := by
  intro before after
  refine ⟨bytes, ?_, rfl⟩
  have hle : before.length + bytes.length ≤ (before ++ bytes ++ after).length := by
    simp only [List.length_append]
    omega
  rw [take, if_pos hle, List.append_assoc, List.drop_left, List.take_left]

/-- Reading into each target in turn. -/
theorem yields_mapM {f : α → Reader β} {enc : ι → List UInt8} {R : ι → β → Prop}
    {targets : List α} {items : List ι} (hlen : targets.length = items.length)
    (h : ∀ target ∈ targets, ∀ x ∈ items, Yields (f target) (enc x) (R x)) :
    Yields (targets.mapM f) (items.flatMap enc) (List.Forall₂ R items) := by
  induction items generalizing targets with
  | nil =>
    rw [List.length_eq_zero_iff.mp hlen, List.mapM_nil]
    exact yields_pure .nil
  | cons x items ih =>
    obtain ⟨target, targets, rfl⟩ := List.exists_cons_of_length_eq_add_one hlen
    rw [List.mapM_cons, List.flatMap_cons]
    refine (h target List.mem_cons_self x List.mem_cons_self).bind fun b hb => ?_
    have hrest := ih (Nat.succ.inj hlen) fun t ht y hy =>
      h t (List.mem_cons_of_mem _ ht) y (List.mem_cons_of_mem _ hy)
    exact hrest.map fun bs hbs => .cons hb hbs

theorem yields_foldlM_from {f : σ → α → Reader σ} {enc : ι → List UInt8} {I : List ι → σ → Prop}
    {turns : List α} {done items : List ι} {s : σ} (hlen : turns.length = items.length)
    (h0 : I done s) (hstep : ∀ pre x post s a, done ++ items = pre ++ x :: post → I pre s →
      Yields (f s a) (enc x) (I (pre ++ [x]))) :
    Yields (turns.foldlM f s) (items.flatMap enc) (I (done ++ items)) := by
  induction items generalizing turns done s with
  | nil =>
    rw [List.length_eq_zero_iff.mp hlen, List.foldlM_nil, List.append_nil]
    exact yields_pure h0
  | cons x items ih =>
    obtain ⟨a, turns, rfl⟩ := List.exists_cons_of_length_eq_add_one hlen
    rw [List.foldlM_cons, List.flatMap_cons]
    refine (hstep done x items s a rfl h0).bind fun t ht => ?_
    rw [List.append_cons]
    refine ih (Nat.succ.inj hlen) ht fun pre y post u b hsplit => ?_
    exact hstep pre y post u b (by rw [← hsplit, ← List.append_cons])

/-- **Loops.** One item is read in each turn: `I` relates the items read so far
to what was made of them. -/
theorem yields_foldlM {f : σ → α → Reader σ} {enc : ι → List UInt8} (I : List ι → σ → Prop)
    {turns : List α} {items : List ι} {s : σ} (hlen : turns.length = items.length)
    (h0 : I [] s) (hstep : ∀ pre x post s a, items = pre ++ x :: post → I pre s →
      Yields (f s a) (enc x) (I (pre ++ [x]))) :
    Yields (turns.foldlM f s) (items.flatMap enc) (I items) :=
  yields_foldlM_from hlen h0 hstep

/-! ## Readers that may fail -/

theorem YieldsUnless.map {g : α → β} (h : YieldsUnless D r bytes P) (hg : ∀ a, P a → Q (g a)) :
    YieldsUnless D (r >>= fun a => pure (g a)) bytes Q := by
  intro before after
  rcases h before after with ⟨hn, hd⟩ | ⟨a, hr, ha⟩
  · exact .inl ⟨by rw [bind_apply, hn]; rfl, hd⟩
  · exact .inr ⟨g a, by rw [bind_apply, hr]; rfl, hg a ha⟩

/-- Reading into each target in turn, where a target takes its item exactly if `C`. -/
theorem yieldsUnless_mapM {f : α → Reader β} {enc : ι → List UInt8} {R : ι → β → Prop}
    {C : α → ι → Prop} {targets : List α} {items : List ι}
    (hlen : targets.length = items.length)
    (h : ∀ target ∈ targets, ∀ x ∈ items,
      YieldsUnless (¬ C target x) (f target) (enc x) fun b => R x b ↔ C target x) :
    YieldsUnless (¬ List.Forall₂ C targets items) (targets.mapM f) (items.flatMap enc) fun bs =>
      bs.length = items.length ∧ (List.Forall₂ R items bs ↔ List.Forall₂ C targets items) := by
  induction items generalizing targets with
  | nil =>
    rw [List.length_eq_zero_iff.mp hlen, List.mapM_nil]
    exact (yields_pure ⟨rfl, by simp⟩).unless
  | cons x items ih =>
    obtain ⟨target, targets, rfl⟩ := List.exists_cons_of_length_eq_add_one hlen
    rw [List.mapM_cons, List.flatMap_cons]
    intro before after
    have hdata : before ++ (enc x ++ items.flatMap enc) ++ after =
        before ++ enc x ++ (items.flatMap enc ++ after) := by
      simp only [List.append_assoc]
    have hdata' : before ++ enc x ++ (items.flatMap enc ++ after) =
        before ++ enc x ++ items.flatMap enc ++ after := by
      simp only [List.append_assoc]
    rcases h target List.mem_cons_self x List.mem_cons_self before (items.flatMap enc ++ after)
      with ⟨hn, hc⟩ | ⟨b, hb, hiff⟩
    · refine .inl ⟨by rw [bind_apply, hdata, hn]; rfl, ?_⟩
      rw [List.forall₂_cons]
      exact fun hall => hc hall.1
    · have hrest := ih (Nat.succ.inj hlen) (fun t ht y hy =>
        h t (List.mem_cons_of_mem _ ht) y (List.mem_cons_of_mem _ hy)) (before ++ enc x) after
      rw [List.length_append] at hrest
      rw [List.forall₂_cons, bind_apply, hdata, hb, hdata', Option.bind_some, bind_apply]
      rcases hrest with ⟨hn, hc⟩ | ⟨bs, hbs, hblen, hbiff⟩
      · exact .inl ⟨by rw [hn]; rfl, fun hall => hc hall.2⟩
      · refine .inr ⟨b :: bs, ?_, by rw [List.length_cons, hblen, List.length_cons], ?_⟩
        · rw [hbs]
          simp only [Option.bind_some, List.length_append, Nat.add_assoc]
          rfl
        · rw [List.forall₂_cons, hiff, hbiff]

end Reader

end HermesShm.Base
