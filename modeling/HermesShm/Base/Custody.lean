import Mathlib.Data.List.Nodup
import Mathlib.Data.List.Perm.Basic
import Mathlib.Logic.Function.Basic

/-! # Items in one place each

Every item of a set is held by one owner or lies in a common list, once. Items
pass from an owner to the common list and back, and new ones are made. -/
namespace HermesShm.Base

variable {ι α : Type*}

/-- Each item that exists is with one owner or in common, and nowhere twice. -/
structure Custody (own : ι → List α) (common : List α) (all : α → Prop) : Prop where
  nodup : ∀ i, (own i).Nodup
  common_nodup : common.Nodup
  apart : ∀ i j a, a ∈ own i → a ∈ own j → i = j
  disjoint : ∀ i, ∀ a ∈ own i, a ∉ common
  covered : ∀ a, all a ↔ a ∈ common ∨ ∃ i, a ∈ own i

namespace Custody

variable {own : ι → List α} {common l : List α} {all : α → Prop} {i : ι} {a : α}

theorem empty : Custody (fun _ : ι => ([] : List α)) [] fun _ => False where
  nodup := fun _ => List.nodup_nil
  common_nodup := List.nodup_nil
  apart := nofun
  disjoint := nofun
  covered := by simp

theorem congr {all' : α → Prop} (h : Custody own common all) (he : ∀ a, all' a ↔ all a) :
    Custody own common all' :=
  { h with covered := fun a => (he a).trans (h.covered a) }

/-- What owner `i` has no other has. -/
theorem notMem_other (h : Custody own common all) (ha : a ∈ own i) : ∀ j, j ≠ i → a ∉ own j :=
  fun j hj haj => hj (h.apart j i a haj ha)

variable [DecidableEq ι]

/-- Owner `i` now has `l`, and the rest is told for each owner. -/
theorem exists_update (l : List α) (i : ι) (b : α) :
    (∃ j, b ∈ Function.update own i l j) ↔ b ∈ l ∨ ∃ j, j ≠ i ∧ b ∈ own j := by
  constructor
  · intro ⟨j, hj⟩
    by_cases hji : j = i
    · subst hji
      rw [Function.update_self] at hj
      exact .inl hj
    · rw [Function.update_of_ne hji] at hj
      exact .inr ⟨j, hji, hj⟩
  · intro hb
    rcases hb with hb | ⟨j, hji, hj⟩
    · exact ⟨i, by rw [Function.update_self]; exact hb⟩
    · exact ⟨j, by rw [Function.update_of_ne hji]; exact hj⟩

/-- Owner `i` has `l` instead: nothing in it is elsewhere. -/
theorem update {common' : List α} {all' : α → Prop} (h : Custody own common all) (hl : l.Nodup)
    (hc : common'.Nodup) (hapart : ∀ b ∈ l, ∀ j, j ≠ i → b ∉ own j)
    (hdisj : ∀ b ∈ l, b ∉ common') (hother : ∀ j, j ≠ i → ∀ b ∈ own j, b ∉ common')
    (hcov : ∀ b, all' b ↔ b ∈ common' ∨ b ∈ l ∨ ∃ j, j ≠ i ∧ b ∈ own j) :
    Custody (Function.update own i l) common' all' := by
  refine ⟨fun j => ?_, hc, fun j k b hj hk => ?_, fun j b hj => ?_, fun b => ?_⟩
  · by_cases hji : j = i
    · subst hji
      rw [Function.update_self]
      exact hl
    · rw [Function.update_of_ne hji]
      exact h.nodup j
  · by_cases hji : j = i
    · subst hji
      rw [Function.update_self] at hj
      by_contra hne
      rw [Function.update_of_ne (Ne.symm hne)] at hk
      exact hapart b hj k (Ne.symm hne) hk
    · rw [Function.update_of_ne hji] at hj
      by_cases hki : k = i
      · subst hki
        rw [Function.update_self] at hk
        exact absurd hj (hapart b hk j hji)
      · rw [Function.update_of_ne hki] at hk
        exact h.apart j k b hj hk
  · by_cases hji : j = i
    · subst hji
      rw [Function.update_self] at hj
      exact hdisj b hj
    · rw [Function.update_of_ne hji] at hj
      exact hother j hji b hj
  · rw [hcov, exists_update]

/-- An owner puts its items in another order. -/
theorem rearrange (h : Custody own common all) (hl : l.Perm (own i)) :
    Custody (Function.update own i l) common all := by
  refine h.update (hl.nodup_iff.mpr (h.nodup i)) h.common_nodup
    (fun b hb => h.notMem_other (hl.mem_iff.mp hb)) (fun b hb => h.disjoint i b (hl.mem_iff.mp hb))
    (fun j _ => h.disjoint j) fun b => ?_
  rw [h.covered, hl.mem_iff]
  refine or_congr .rfl ⟨fun ⟨j, hj⟩ => ?_, fun hb => hb.elim (⟨i, ·⟩) fun ⟨j, _, hj⟩ => ⟨j, hj⟩⟩
  by_cases hji : j = i
  · exact .inl (hji ▸ hj)
  · exact .inr ⟨j, hji, hj⟩

/-- An owner puts an item into the common list. -/
theorem deposit (h : Custody own common all) (hl : (own i).Perm (a :: l)) :
    Custody (Function.update own i l) (common ++ [a]) all := by
  have hnodup : (a :: l).Nodup := hl.nodup_iff.mp (h.nodup i)
  obtain ⟨hal, hln⟩ := List.nodup_cons.mp hnodup
  have hown : ∀ b, b ∈ own i ↔ b = a ∨ b ∈ l := fun b => by rw [hl.mem_iff, List.mem_cons]
  have ha : a ∈ own i := (hown a).mpr (.inl rfl)
  refine h.update hln ?_ (fun b hb => h.notMem_other ((hown b).mpr (.inr hb))) ?_ ?_ fun b => ?_
  · refine List.nodup_append.mpr ⟨h.common_nodup, List.nodup_singleton _, fun x hx y hy => ?_⟩
    rw [List.mem_singleton.mp hy]
    exact fun he => h.disjoint i a ha (he ▸ hx)
  · intro b hb hc
    rcases List.mem_append.mp hc with hc | hc
    · exact h.disjoint i b ((hown b).mpr (.inr hb)) hc
    · exact hal (List.mem_singleton.mp hc ▸ hb)
  · intro j hj b hb hc
    rcases List.mem_append.mp hc with hc | hc
    · exact h.disjoint j b hb hc
    · exact h.notMem_other ha j hj (List.mem_singleton.mp hc ▸ hb)
  · rw [h.covered, List.mem_append, List.mem_singleton]
    constructor
    · intro hb
      rcases hb with hb | ⟨j, hj⟩
      · exact .inl (.inl hb)
      · by_cases hji : j = i
        · subst hji
          exact ((hown b).mp hj).elim (fun hb => .inl (.inr hb)) fun hb => .inr (.inl hb)
        · exact .inr (.inr ⟨j, hji, hj⟩)
    · intro hb
      rcases hb with (hb | rfl) | hb | ⟨j, _, hj⟩
      · exact .inl hb
      · exact .inr ⟨i, ha⟩
      · exact .inr ⟨i, (hown b).mpr (.inr hb)⟩
      · exact .inr ⟨j, hj⟩

/-- An owner gets an item that no one has, out of the common list or new. -/
theorem acquire {common' : List α} {all' : α → Prop} (h : Custody own common all)
    (hl : l.Perm (a :: own i)) (hc : common'.Nodup) (hac : a ∉ common')
    (hsub : ∀ b ∈ common', b ∈ common) (hnew : ∀ j, a ∉ own j)
    (hcov : ∀ b, all' b ↔ b ∈ common' ∨ b = a ∨ ∃ j, b ∈ own j) :
    Custody (Function.update own i l) common' all' := by
  have hmem : ∀ b, b ∈ l ↔ b = a ∨ b ∈ own i := fun b => by rw [hl.mem_iff, List.mem_cons]
  refine h.update ?_ hc (fun b hb j hj => ?_) (fun b hb => ?_) (fun j _ b hb hb' => ?_) fun b => ?_
  · exact hl.nodup_iff.mpr (List.nodup_cons.mpr ⟨hnew i, h.nodup i⟩)
  · rcases (hmem b).mp hb with rfl | hb
    · exact hnew j
    · exact h.notMem_other hb j hj
  · rcases (hmem b).mp hb with rfl | hb
    · exact hac
    · exact fun hb' => h.disjoint i b hb (hsub b hb')
  · exact h.disjoint j b hb (hsub b hb')
  · rw [hcov, hmem]
    refine or_congr .rfl ⟨fun hb => ?_, fun hb => ?_⟩
    · rcases hb with rfl | ⟨j, hj⟩
      · exact .inl (.inl rfl)
      · by_cases hji : j = i
        · exact .inl (.inr (hji ▸ hj))
        · exact .inr ⟨j, hji, hj⟩
    · rcases hb with (rfl | hb) | ⟨j, _, hj⟩
      · exact .inl rfl
      · exact .inr ⟨i, hb⟩
      · exact .inr ⟨j, hj⟩

/-- An owner takes the first item of the common list. -/
theorem withdraw (h : Custody own (a :: common) all) (hl : l.Perm (a :: own i)) :
    Custody (Function.update own i l) common all := by
  obtain ⟨hac, hc⟩ := List.nodup_cons.mp h.common_nodup
  refine h.acquire hl hc hac (fun b => List.mem_cons_of_mem _)
    (fun j ha => h.disjoint j a ha List.mem_cons_self) fun b => ?_
  rw [h.covered, List.mem_cons, or_comm (a := b = a), or_assoc]

/-- An owner makes a new item. -/
theorem mint (h : Custody own common all) (hnew : ¬ all a) (hl : l.Perm (a :: own i)) :
    Custody (Function.update own i l) common fun b => b = a ∨ all b := by
  have hno : a ∉ common ∧ ∀ j, a ∉ own j :=
    ⟨fun ha => hnew ((h.covered a).mpr (.inl ha)),
      fun j ha => hnew ((h.covered a).mpr (.inr ⟨j, ha⟩))⟩
  refine h.acquire hl h.common_nodup hno.1 (fun _ => id) hno.2 fun b => ?_
  rw [h.covered]
  exact or_left_comm

end Custody

end HermesShm.Base
