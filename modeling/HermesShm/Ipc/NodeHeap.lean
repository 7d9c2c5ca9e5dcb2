import HermesShm.Base.Chain
import Mathlib.Tactic.Common

/-! # A heap of list nodes

The nodes of all lists of one allocator, by their pointers. `hipc::list` and
`hipc::slist` erase a range with the same loop. -/
namespace HermesShm.Ipc
open HermesShm.Base

abbrev Ptr := Nat

abbrev NodeHeap (ε : Type) := Ptr → Option ε

namespace NodeHeap

variable {ε : Type}

/-- The link `link` of the node at a pointer. -/
def link (f : ε → Option Ptr) (h : NodeHeap ε) (p : Ptr) : Option (Option Ptr) := (h p).map f

def put (h : NodeHeap ε) (p : Ptr) (e : Option ε) : NodeHeap ε := Function.update h p e

theorem map_put {β : Type} (f : ε → β) (h : NodeHeap ε) (p : Ptr) (e : Option ε) :
    (fun q => (h.put p e q).map f) = Function.update (fun q => (h q).map f) p (e.map f) := by
  funext q
  by_cases hq : q = p
  · subst hq; simp [put]
  · simp [put, hq]

@[simp] theorem put_self (h : NodeHeap ε) (p : Ptr) (e : Option ε) : h.put p e p = e :=
  Function.update_self ..

theorem put_of_ne {h : NodeHeap ε} {p q : Ptr} (hq : q ≠ p) (e : Option ε) : h.put p e q = h q :=
  Function.update_of_ne hq ..

@[simp] theorem link_put (f : ε → Option Ptr) (h : NodeHeap ε) (p : Ptr) (e : Option ε) :
    (h.put p e).link f = Function.update (h.link f) p (e.map f) := map_put f h p e

theorem link_congr {f : ε → Option Ptr} {h h' : NodeHeap ε} {p : Ptr} (hp : h' p = h p) :
    h'.link f p = h.link f p := by
  rw [link, link, hp]

/-- The loop of `erase(first, last)`: free the nodes from `pos` up to `last` and
take one from `length_` for each, which bounds the loop. -/
def freeRange (next : ε → Option Ptr) (last : Option Ptr) :
    Nat → NodeHeap ε → Nat → Option Ptr → Option (NodeHeap ε × Nat)
  | 0, h, len, pos => if pos = last then some (h, len) else none
  | fuel + 1, h, len, pos =>
    if pos = last then some (h, len)
    else do
      let p ← pos
      let e ← h p
      freeRange next last fuel (h.put p none) (len - 1) (next e)

/-- The loop frees the nodes it passes, and only these. -/
theorem freeRange_spec {next : ε → Option Ptr} {h : NodeHeap ε} {last pos : Option Ptr}
    {ps : List Ptr} {fuel : Nat} (len : Nat) (hc : Chain (h.link next) pos ps last) (hnd : ps.Nodup)
    (hlast : ∀ p ∈ ps, last ≠ some p) (hfuel : ps.length ≤ fuel) :
    ∃ h', freeRange next last fuel h len pos = some (h', len - ps.length) ∧
      (∀ p ∈ ps, h' p = none) ∧ ∀ p ∉ ps, h' p = h p := by
  induction ps generalizing h pos fuel len with
  | nil =>
    obtain rfl := hc
    refine ⟨h, ?_, nofun, fun _ _ => rfl⟩
    cases fuel <;> simp [freeRange]
  | cons p ps ih =>
    obtain ⟨rfl, n, hn, hc⟩ := hc
    obtain ⟨e, he, rfl⟩ := Option.map_eq_some_iff.mp hn
    obtain ⟨hp, hnd⟩ := List.nodup_cons.mp hnd
    cases fuel with
    | zero => simp at hfuel
    | succ fuel =>
      have hchain : Chain ((h.put p none).link next) (next e) ps last := by
        rw [link_put]
        exact hc.update hp _
      obtain ⟨h', hh', hfreed, hheap⟩ := ih (len - 1) hchain hnd
        (fun q hq => hlast q (List.mem_cons_of_mem _ hq)) (by simpa using hfuel)
      refine ⟨h', ?_, fun q hq => ?_, fun q hq => ?_⟩
      · rw [freeRange, if_neg (Ne.symm (hlast p List.mem_cons_self))]
        simp only [he, Option.bind_eq_bind, Option.bind_some, hh', List.length_cons]
        rw [Nat.sub_sub, Nat.add_comm 1]
      · rcases List.mem_cons.mp hq with rfl | hq
        · rw [hheap q hp, put_self]
        · exact hfreed q hq
      · simp only [List.mem_cons, not_or] at hq
        rw [hheap q hq.2, put_of_ne hq.1]

/-- The loop on the middle of a list: the chains around it stay. -/
theorem freeMiddle_spec {next : ε → Option Ptr} {h : NodeHeap ε} {head : Option Ptr}
    {as bs cs : List Ptr} {fuel : Nat} (len : Nat)
    (hc : Chain (h.link next) head (as ++ (bs ++ cs)) none) (hfuel : bs.length ≤ fuel) :
    ∃ h', freeRange next cs.head? fuel h len (bs ++ cs).head? = some (h', len - bs.length) ∧
      (∀ p ∈ bs, h' p = none) ∧ (∀ p ∉ bs, h' p = h p) ∧ (∀ p ∈ as ++ cs, h' p = h p) ∧
      Chain (h'.link next) head as (bs ++ cs).head? ∧ Chain (h'.link next) cs.head? cs none := by
  obtain ⟨-, hndBC, hdA⟩ := List.nodup_append.mp hc.nodup
  obtain ⟨hndB, -, hdB⟩ := List.nodup_append.mp hndBC
  obtain ⟨x, hA, hBC⟩ := Chain.append_iff.mp hc
  obtain ⟨y, hB, hC⟩ := Chain.append_iff.mp hBC
  obtain rfl : x = (bs ++ cs).head? := hBC.head_none
  obtain rfl : y = cs.head? := hC.head_none
  have hlast : ∀ p ∈ bs, cs.head? ≠ some p := fun p hp he =>
    hdB p hp p (List.mem_of_mem_head? he) rfl
  obtain ⟨h', hh', hfreed, hheap⟩ := freeRange_spec len hB hndB hlast hfuel
  have hkept : ∀ p ∈ as ++ cs, h' p = h p := by
    intro p hp
    refine hheap p fun hb => ?_
    rcases List.mem_append.mp hp with ha | hc
    · exact hdA p ha p (List.mem_append_left _ hb) rfl
    · exact hdB p hb p hc rfl
  exact ⟨h', hh', hfreed, hheap, hkept,
    hA.congr fun p hp => link_congr (hkept p (List.mem_append_left _ hp)),
    hC.congr fun p hp => link_congr (hkept p (List.mem_append_right _ hp))⟩

/-- The loop of `find(first, last, v)`, up to the null pointer. -/
def findLoop {α : Type} [DecidableEq α] (next : ε → Option Ptr) (data : ε → α) (h : NodeHeap ε)
    (v : α) : Nat → Option Ptr → Option (Option Ptr)
  | _, none => some none
  | 0, some _ => none
  | fuel + 1, some p => do
    let e ← h p
    if data e = v then some (some p) else findLoop next data h v fuel (next e)

/-- The loop stops at the first node with the value. -/
theorem findLoop_spec {α : Type} [DecidableEq α] {next : ε → Option Ptr} {data : ε → α}
    {h : NodeHeap ε} {pos : Option Ptr} {ns : List (Ptr × α)} {fuel : Nat} (v : α)
    (hc : Chain (h.link next) pos (ns.map Prod.fst) none)
    (hd : ∀ n ∈ ns, (h n.1).map data = some n.2) (hfuel : ns.length ≤ fuel) :
    findLoop next data h v fuel pos =
      some (ns.map Prod.fst)[(ns.map Prod.snd).idxOf v]? := by
  induction ns generalizing pos fuel with
  | nil =>
    obtain rfl := hc
    cases fuel <;> rfl
  | cons n ns ih =>
    obtain ⟨rfl, m, hm, hc⟩ := hc
    obtain ⟨e, he, rfl⟩ := Option.map_eq_some_iff.mp hm
    have hv := hd n List.mem_cons_self
    simp only [he, Option.map_some, Option.some.injEq] at hv
    cases fuel with
    | zero => simp at hfuel
    | succ fuel =>
      simp only [findLoop, he, Option.bind_eq_bind, Option.bind_some, hv, List.map_cons]
      by_cases heq : n.2 = v
      · simp [heq]
      · rw [if_neg heq, List.idxOf_cons_ne _ heq, List.getElem?_cons_succ]
        exact ih hc (fun k hk => hd k (List.mem_cons_of_mem _ hk)) (by simpa using hfuel)

end NodeHeap
end HermesShm.Ipc
