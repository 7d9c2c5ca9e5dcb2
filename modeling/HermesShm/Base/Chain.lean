import Mathlib.Data.List.Nodup
import Mathlib.Logic.Function.Basic

/-! # Chains of pointers

`next p` is where node `p` points to, and `none` if there is no node `p`. A
chain from `a` to `b` follows `next` through a list of nodes. -/
namespace HermesShm.Base

variable {π : Type*}

def Chain (next : π → Option (Option π)) : Option π → List π → Option π → Prop
  | a, [], b => a = b
  | a, p :: ps, b => a = some p ∧ ∃ n, next p = some n ∧ Chain next n ps b

namespace Chain

variable {next next' : π → Option (Option π)} {a b c : Option π} {p : π} {ps qs : List π}

theorem append_iff : Chain next a (ps ++ qs) b ↔ ∃ c, Chain next a ps c ∧ Chain next c qs b := by
  induction ps generalizing a with
  | nil => exact ⟨fun h => ⟨a, rfl, h⟩, by rintro ⟨c, rfl, h⟩; exact h⟩
  | cons p ps ih =>
    constructor
    · rintro ⟨rfl, n, hn, h⟩
      obtain ⟨c, hps, hqs⟩ := ih.mp h
      exact ⟨c, ⟨rfl, n, hn, hps⟩, hqs⟩
    · rintro ⟨c, ⟨rfl, n, hn, hps⟩, hqs⟩
      exact ⟨rfl, n, hn, ih.mpr ⟨c, hps, hqs⟩⟩

theorem append (h : Chain next a ps b) (h' : Chain next b qs c) : Chain next a (ps ++ qs) c :=
  append_iff.mpr ⟨b, h, h'⟩

/-- A chain looks at its own nodes only. -/
theorem congr (h : Chain next a ps b) (hn : ∀ p ∈ ps, next' p = next p) : Chain next' a ps b := by
  induction ps generalizing a with
  | nil => exact h
  | cons p ps ih =>
    obtain ⟨rfl, n, hp, h⟩ := h
    exact ⟨rfl, n, by rw [hn p List.mem_cons_self, hp],
      ih h fun q hq => hn q (List.mem_cons_of_mem _ hq)⟩

theorem isSome (h : Chain next a ps b) (hp : p ∈ ps) : (next p).isSome := by
  induction ps generalizing a with
  | nil => cases hp
  | cons q ps ih =>
    obtain ⟨rfl, n, hq, h⟩ := h
    rcases List.mem_cons.mp hp with rfl | hp
    · rw [hq]; rfl
    · exact ih h hp

/-- From one place, all chains to the null pointer are the same. -/
theorem unique (h : Chain next a ps none) (h' : Chain next a qs none) : ps = qs := by
  induction ps generalizing a qs with
  | nil =>
    obtain rfl := h
    cases qs with
    | nil => rfl
    | cons q qs => cases h'.1
  | cons p ps ih =>
    obtain ⟨rfl, n, hp, h⟩ := h
    cases qs with
    | nil => cases h'
    | cons q qs =>
      obtain ⟨hq, m, hm, h'⟩ := h'
      cases hq
      rw [hp] at hm
      cases hm
      rw [ih h h']

theorem nodup (h : Chain next a ps none) : ps.Nodup := by
  induction ps generalizing a with
  | nil => exact List.nodup_nil
  | cons p ps ih =>
    have hps := h
    obtain ⟨rfl, n, hp, h⟩ := h
    refine List.nodup_cons.mpr ⟨fun hmem => ?_, ih h⟩
    -- a node met again would give a shorter chain from the same place
    obtain ⟨s, t, rfl⟩ := List.append_of_mem hmem
    obtain ⟨c, -, hc⟩ := append_iff.mp h
    obtain rfl := hc.1
    have := congrArg List.length (unique hps hc)
    simp at this
    omega

theorem head_none (h : Chain next a ps none) : a = ps.head? := by
  cases ps with
  | nil => exact h
  | cons p ps => exact h.1

theorem snoc (h : Chain next a ps (some p)) (hp : next p = some b) :
    Chain next a (ps ++ [p]) b :=
  h.append ⟨rfl, b, hp, rfl⟩

theorem last (h : Chain next a (ps ++ [p]) b) : next p = some b := by
  obtain ⟨c, -, -, n, hn, rfl⟩ := append_iff.mp h
  exact hn

/-- Redirecting the last node of a chain. -/
theorem redirect [DecidableEq π] (h : Chain next a (ps ++ [p]) c) (hp : p ∉ ps) :
    Chain (Function.update next p (some b)) a (ps ++ [p]) b := by
  obtain ⟨d, hps, hd⟩ := append_iff.mp h
  obtain rfl := hd.1
  refine snoc (hps.congr fun q hq => Function.update_of_ne ?_ _ _) (Function.update_self ..)
  rintro rfl
  exact hp hq

/-- Adding and removing nodes outside a chain leaves it. -/
theorem update [DecidableEq π] (h : Chain next a ps b) (hp : p ∉ ps) (x : Option (Option π)) :
    Chain (Function.update next p x) a ps b := by
  refine h.congr fun q hq => Function.update_of_ne ?_ _ _
  rintro rfl
  exact hp hq

/-- Where a node of a chain points, the chain goes on. -/
theorem split_at {r : π} (h : Chain next a ps none) (hr : r ∈ ps) (hp : next r = some (some p)) :
    ∃ as cs, ps = as ++ r :: p :: cs := by
  obtain ⟨as, bs, rfl⟩ := List.append_of_mem hr
  obtain ⟨c, -, -, n, hn, hbs⟩ := append_iff.mp h
  rw [hp] at hn
  obtain rfl := Option.some.inj hn
  cases bs with
  | nil => cases hbs
  | cons q cs =>
    obtain rfl := Option.some.inj hbs.1
    exact ⟨as, cs, rfl⟩

/-- Taking a node out of the middle of a chain. -/
theorem unlink [DecidableEq π] {r : π} {as cs : List π} {n : Option π}
    (h : Chain next a (as ++ r :: p :: cs) none) (hn : next p = some n) :
    Chain (Function.update next r (some n)) a (as ++ r :: cs) none := by
  have hnd := h.nodup
  obtain ⟨c, has, rfl, m, -, hm⟩ := append_iff.mp h
  obtain ⟨-, n', hn', hcs⟩ := hm
  rw [hn] at hn'
  obtain rfl := Option.some.inj hn'
  obtain ⟨-, hrs, hdis⟩ := List.nodup_append.mp hnd
  refine append (has.update ?_ _) ⟨rfl, n, Function.update_self .., hcs.update ?_ _⟩
  · intro hmem
    exact hdis r hmem r List.mem_cons_self rfl
  · intro hmem
    exact (List.nodup_cons.mp hrs).1 (List.mem_cons_of_mem _ hmem)

end Chain

/-- Follow `next` for `n` nodes, staying at the null pointer. -/
def follow (next : π → Option (Option π)) : Nat → Option π → Option (Option π)
  | 0, a => some a
  | _ + 1, none => some none
  | n + 1, some p => (next p).bind fun a => follow next n a

theorem follow_add (next : π → Option (Option π)) (m n : Nat) (a : Option π) :
    follow next (m + n) a = (follow next m a).bind (follow next n) := by
  induction m generalizing a with
  | zero => rw [Nat.zero_add]; rfl
  | succ m ih =>
    rw [Nat.succ_add]
    cases a with
    | none => cases n <;> rfl
    | some p =>
      rw [follow, follow, Option.bind_assoc]
      exact Option.bind_congr fun b _ => ih b

theorem Chain.follow {next : π → Option (Option π)} {a : Option π} {ps : List π}
    (h : Chain next a ps none) (n : Nat) : follow next n a = some ps[n]? := by
  induction n generalizing a ps with
  | zero => rw [Base.follow, h.head_none, List.head?_eq_getElem?]
  | succ n ih =>
    cases ps with
    | nil =>
      obtain rfl := h
      simp [Base.follow]
    | cons p ps =>
      obtain ⟨rfl, b, hp, h⟩ := h
      rw [Base.follow, hp, Option.bind_some, ih h, List.getElem?_cons_succ]

end HermesShm.Base
