import HermesShm.Ipc.SplitTicketQueue
import Mathlib.Algebra.Order.Group.Multiset

/-! # No ticket is lost

Each split holds the tickets that were inserted and not removed, so a call
either moves one ticket or finds its split full or empty. A call that no other
overlaps finds every split as its own earlier tries left it. -/
namespace HermesShm.Ipc.SplitTicketQueue
open HermesShm.Base HermesShm.Ipc.RingQueue

variable {ι τ : Type*}

/-! ## The tickets of a split -/

namespace Hist

/-- The tickets in split `q`. -/
def held (h : Hist τ) (q : Nat) : List τ := (h.inserted q).drop (h.removed q).length

end Hist

theorem tickets_of_holds {r : RingQueue.Ring τ} {xs : List τ} (h : r.Holds xs) :
    tickets r = xs.map some := by
  refine List.ext_getElem (by simp [tickets, h.size]) fun i hi _ => ?_
  have hlt : i < xs.length := by simpa [tickets, h.size] using hi
  simp only [tickets, List.getElem_map, List.getElem_range]
  rw [h.slot i _ (List.getElem?_eq_getElem hlt)]

structure Inv (m : Shared τ) : Prop where
  splits_pos : 0 < m.num_splits
  holds : ∀ q, (m.splits_ q).Holds (m.hist.held q)
  le : ∀ q, (m.hist.removed q).length ≤ (m.hist.inserted q).length
  order : ∀ q, m.hist.removed q = ((m.hist.inserted q).take (m.hist.removed q).length).map some
  tickets : (m.hist.popped : Multiset (Option τ)) +
    ∑ q ∈ Finset.range m.num_splits, (((m.hist.held q).map some : List _) : Multiset (Option τ)) =
      (m.hist.emplaced.map some : List _)

/-- Changing the tickets of one split. -/
theorem sum_update {n : Nat} {f g : Nat → List (Option τ)} {q : Nat} (hq : q < n)
    (hother : ∀ p, p ≠ q → g p = f p) :
    (f q : Multiset (Option τ)) + ∑ p ∈ Finset.range n, (g p : Multiset (Option τ)) =
      (g q : Multiset (Option τ)) + ∑ p ∈ Finset.range n, (f p : Multiset (Option τ)) := by
  have hmem : q ∈ Finset.range n := Finset.mem_range.mpr hq
  have hrest : ∑ p ∈ (Finset.range n).erase q, (g p : Multiset (Option τ)) =
      ∑ p ∈ (Finset.range n).erase q, (f p : Multiset (Option τ)) :=
    Finset.sum_congr rfl fun p hp => by rw [hother p (Finset.ne_of_mem_erase hp)]
  rw [← Finset.add_sum_erase _ (fun p => (g p : Multiset (Option τ))) hmem,
    ← Finset.add_sum_erase _ (fun p => (f p : Multiset (Option τ))) hmem, hrest]
  exact add_left_comm _ _ _

namespace Inv

variable {m : Shared τ} {q : Nat} {tkt : τ} {r : RingQueue.Ring τ}

theorem conserves (h : Inv m) : Conserves m where
  tickets := by
    rw [← h.tickets]
    refine congrArg _ (Finset.sum_congr rfl fun q _ => ?_)
    rw [tickets_of_holds (h.holds q)]
  order := h.order

theorem qid_lt (h : Inv m) (qid_start i : Nat) :
    qid m.num_splits qid_start i < m.num_splits :=
  Nat.lt_of_le_of_lt (Nat.mod_le _ _) (Nat.mod_lt _ h.splits_pos)

theorem insert (h : Inv m) (hq : q < m.num_splits) (hr : r.Holds (m.hist.held q ++ [tkt])) :
    Inv { m.setSplit q r with hist := m.hist.insert q tkt } := by
  have hheld : ∀ p, (m.hist.insert q tkt).held p =
      if p = q then m.hist.held q ++ [tkt] else m.hist.held p := by
    intro p
    by_cases hp : p = q
    · subst hp
      simp only [Hist.held, Hist.insert, Function.update_self, if_true]
      exact List.drop_append_of_le_length (h.le p)
    · simp only [Hist.held, Hist.insert, Function.update_of_ne hp, if_neg hp]
  refine ⟨h.splits_pos, fun p => ?_, fun p => ?_, fun p => ?_, ?_⟩
  · simp only [Shared.setSplit, hheld]
    by_cases hp : p = q
    · subst hp
      simpa using hr
    · rw [Function.update_of_ne hp, if_neg hp]
      exact h.holds p
  · by_cases hp : p = q
    · subst hp
      simp only [Hist.insert, Function.update_self, List.length_append]
      exact Nat.le_trans (h.le p) (Nat.le_add_right _ _)
    · simp only [Hist.insert, Function.update_of_ne hp]
      exact h.le p
  · by_cases hp : p = q
    · subst hp
      simp only [Hist.insert, Function.update_self, List.take_append_of_le_length (h.le p)]
      exact h.order p
    · simp only [Hist.insert, Function.update_of_ne hp]
      exact h.order p
  · have hsum := sum_update (f := fun p => (m.hist.held p).map some)
      (g := fun p => ((m.hist.insert q tkt).held p).map some) hq
      fun p hp => by rw [hheld, if_neg hp]
    simp only [hheld q, if_true, List.map_append, ← Multiset.coe_add, add_assoc,
      add_right_inj] at hsum
    show (m.hist.popped : Multiset (Option τ)) + ∑ p ∈ Finset.range m.num_splits, _ = _
    rw [hsum, add_left_comm, h.tickets, add_comm, Multiset.coe_add, ← List.map_append]
    rfl

theorem remove {x : τ} {xs : List τ} (h : Inv m) (hq : q < m.num_splits)
    (hx : m.hist.held q = x :: xs) (hr : r.Holds xs) :
    Inv { m.setSplit q r with hist := m.hist.remove q (some x) } := by
  have hlt : (m.hist.removed q).length < (m.hist.inserted q).length := by
    have := congrArg List.length hx
    simp only [Hist.held, List.length_drop, List.length_cons] at this
    omega
  have hget : (m.hist.inserted q)[(m.hist.removed q).length]? = some x := by
    have := congrArg (·[0]?) hx
    simpa [Hist.held] using this
  have hheld : ∀ p, (m.hist.remove q (some x)).held p =
      if p = q then xs else m.hist.held p := by
    intro p
    by_cases hp : p = q
    · subst hp
      simp only [Hist.held, Hist.remove, Function.update_self, if_true, List.length_append,
        List.length_singleton]
      rw [← List.drop_drop]
      exact congrArg (List.drop 1) hx
    · simp only [Hist.held, Hist.remove, Function.update_of_ne hp, if_neg hp]
  refine ⟨h.splits_pos, fun p => ?_, fun p => ?_, fun p => ?_, ?_⟩
  · simp only [Shared.setSplit, hheld]
    by_cases hp : p = q
    · subst hp
      simpa using hr
    · rw [Function.update_of_ne hp, if_neg hp]
      exact h.holds p
  · by_cases hp : p = q
    · subst hp
      simp only [Hist.remove, Function.update_self, List.length_append, List.length_singleton]
      exact hlt
    · simp only [Hist.remove, Function.update_of_ne hp]
      exact h.le p
  · by_cases hp : p = q
    · subst hp
      simp only [Hist.remove, Function.update_self, List.length_append, List.length_singleton,
        List.take_add_one, hget, Option.toList_some, List.map_append, ← h.order p]
      rfl
    · simp only [Hist.remove, Function.update_of_ne hp]
      exact h.order p
  · have hsum := sum_update (f := fun p => (m.hist.held p).map some)
      (g := fun p => ((m.hist.remove q (some x)).held p).map some) hq
      fun p hp => by rw [hheld, if_neg hp]
    simp only [hheld q, if_true, hx, List.map_cons, ← Multiset.cons_coe] at hsum
    rw [← Multiset.singleton_add, add_assoc, add_left_comm, add_right_inj] at hsum
    show ((m.hist.popped ++ [some x] : List _) : Multiset (Option τ)) +
      ∑ p ∈ Finset.range m.num_splits, _ = _
    rw [← Multiset.coe_add, add_assoc, Multiset.coe_singleton, hsum]
    exact h.tickets

end Inv

/-! ## Steps -/

/-- What a step does, case by case, once the invariant tells what is in the
splits. -/
inductive Moved (m : Shared τ) : Thread τ → Shared τ → Thread τ → Prop
  | callEmplace (tkt : τ) : Moved m .idle m (.claimTail tkt)
  | callPop : Moved m .idle m .claimHead
  | claimTail {tkt} :
      Moved m (.claimTail tkt) { m with rr_tail_ := wordAdd rrMod m.rr_tail_ 1 }
        (.tryEmplace tkt (qidStart m.num_splits m.rr_tail_) 0)
  | claimHead :
      Moved m .claimHead { m with rr_head_ := wordAdd rrMod m.rr_head_ 1 }
        (.tryPop (qidStart m.num_splits m.rr_head_) 0)
  | insert {tkt a i r} : r.Holds (m.hist.held (qid m.num_splits a i) ++ [tkt]) →
      Moved m (.tryEmplace tkt a i)
        { m.setSplit (qid m.num_splits a i) r with
          hist := m.hist.insert (qid m.num_splits a i) tkt } .idle
  | full {tkt a i} : qid m.num_splits a i ∉ m.roomy → i + 1 < m.num_splits →
      Moved m (.tryEmplace tkt a i) m (.tryEmplace tkt a (i + 1))
  | refuse {tkt a i} : qid m.num_splits a i ∉ m.roomy → m.num_splits ≤ i + 1 →
      Moved m (.tryEmplace tkt a i)
        { m with hist := { m.hist with refusals := m.hist.refusals ++ [m.roomy] } } .idle
  | remove {a i r x xs} : m.hist.held (qid m.num_splits a i) = x :: xs → r.Holds xs →
      Moved m (.tryPop a i)
        { m.setSplit (qid m.num_splits a i) r with
          hist := m.hist.remove (qid m.num_splits a i) (some x) } .idle
  | empty {a i} : qid m.num_splits a i ∉ m.loaded → i + 1 < m.num_splits →
      Moved m (.tryPop a i) m (.tryPop a (i + 1))
  | miss {a i} : qid m.num_splits a i ∉ m.loaded → m.num_splits ≤ i + 1 →
      Moved m (.tryPop a i)
        { m with hist := { m.hist with misses := m.hist.misses ++ [m.loaded] } } .idle

theorem setSplit_self (m : Shared τ) (q : Nat) : m.setSplit q (m.splits_ q) = m := by
  rw [Shared.setSplit, Function.update_eq_self]

theorem mem_roomy {m : Shared τ} {q : Nat} :
    q ∈ m.roomy ↔ q < m.num_splits ∧ (m.splits_ q).size < (m.splits_ q).depth := by
  simp [Shared.roomy]

theorem mem_loaded {m : Shared τ} {q : Nat} :
    q ∈ m.loaded ↔ q < m.num_splits ∧ 0 < (m.splits_ q).size := by
  simp [Shared.loaded]

theorem advance_cases {m m' : Shared τ} {p p' : Thread τ} {a : Act τ} (hi : Inv m)
    (hg : ∀ tkt b i, p = .tryEmplace tkt b i → (m.splits_ (qid m.num_splits b i)).Fits)
    (h : advance m p a = some (m', p')) : Moved m p m' p' := by
  cases p with
  | idle =>
    cases a with
    | emplace tkt => cases h; exact .callEmplace tkt
    | pop => cases h; exact .callPop
    | access => cases h
  | claimTail tkt => cases a <;> cases h; exact .claimTail
  | claimHead => cases a <;> cases h; exact .claimHead
  | tryEmplace tkt b i =>
    cases a with
    | emplace _ | pop => cases h
    | access =>
      have hh := hi.holds (qid m.num_splits b i)
      have hf := hg tkt b i rfl
      by_cases hroom : (m.hist.held (qid m.num_splits b i)).length <
          (m.splits_ (qid m.num_splits b i)).depth
      · obtain ⟨r, he, hr, -⟩ := hh.emplaceSerial fixedSpscFlags tkt hroom hf
        simp only [advance, he] at h
        cases h
        exact .insert hr
      · have he := hh.emplaceSerial_full (v := tkt) (Nat.le_of_not_lt hroom) (hh.length_lt hf)
          (show errorOnNoSpace fixedSpscFlags = true from rfl)
        have hfull : qid m.num_splits b i ∉ m.roomy := fun hm => by
          rw [mem_roomy, hh.size] at hm
          exact hroom hm.2
        simp only [advance, he, setSplit_self] at h
        split at h <;> cases h
        · rename_i hlt
          exact .full hfull hlt
        · rename_i hge
          exact .refuse hfull (Nat.le_of_not_lt hge)
  | tryPop b i =>
    cases a with
    | emplace _ | pop => cases h
    | access =>
      have hh := hi.holds (qid m.num_splits b i)
      cases hx : m.hist.held (qid m.num_splits b i) with
      | cons x xs =>
        rw [hx] at hh
        obtain ⟨r, hp, hr, -⟩ := hh.pop_cons
        simp only [advance, hp] at h
        cases h
        exact .remove hx hr
      | nil =>
        rw [hx] at hh
        have hempty : qid m.num_splits b i ∉ m.loaded := fun hm => by
          rw [mem_loaded, hh.size] at hm
          exact Nat.lt_irrefl _ hm.2
        simp only [advance, hh.pop_nil, setSplit_self] at h
        split at h <;> cases h
        · rename_i hlt
          exact .empty hempty hlt
        · rename_i hge
          exact .miss hempty (Nat.le_of_not_lt hge)

theorem Moved.inv {m m' : Shared τ} {p p' : Thread τ} (h : Moved m p m' p') (hi : Inv m) :
    Inv m' := by
  cases h with
  | callEmplace | callPop | full | empty => exact hi
  | claimTail | claimHead | refuse | miss => exact { hi with }
  | insert hr => exact hi.insert (hi.qid_lt _ _) hr
  | remove hx hr => exact hi.remove (hi.qid_lt _ _) hx hr

/-! ## Calls that no other overlaps -/

/-- Every split is tried by a call that goes all the way. -/
theorem qid_surjective {n a q : Nat} (hn : n ≤ idxMod) (ha : a < n) (hq : q < n) :
    ∃ j < n, qid n a j = q := by
  have hmod : idxMod + idxMod < sizeMod := by decide
  refine ⟨(q + (n - a)) % n, Nat.mod_lt _ (by omega), ?_⟩
  have hlt := Nat.mod_lt (q + (n - a)) (show 0 < n by omega)
  rw [qid, wordAdd_of_lt (by omega), Nat.add_mod_mod, show a + (q + (n - a)) = q + n by omega,
    Nat.add_mod_right, Nat.mod_eq_of_lt hq]
  exact Nat.mod_eq_of_lt (Nat.lt_of_lt_of_le hq hn)

theorem qidStart_lt {n rr : Nat} (hn : 0 < n) : qidStart n rr < n := Nat.mod_lt _ hn

/-- The splits that a call has tried were full, or empty, and still are. -/
def Tried (m : Shared τ) : Thread τ → Prop
  | .tryEmplace _ a i =>
    a < m.num_splits ∧ i < m.num_splits ∧ ∀ j < i, qid m.num_splits a j ∉ m.roomy
  | .tryPop a i =>
    a < m.num_splits ∧ i < m.num_splits ∧ ∀ j < i, qid m.num_splits a j ∉ m.loaded
  | _ => True

theorem eq_nil_of_tried {n a i : Nat} {qs : List Nat} (hn : n ≤ idxMod) (ha : a < n)
    (hi : n ≤ i + 1) (hqs : ∀ q ∈ qs, q < n) (htried : ∀ j < i, qid n a j ∉ qs)
    (hlast : qid n a i ∉ qs) : qs = [] := by
  refine List.eq_nil_iff_forall_not_mem.mpr fun q hq => ?_
  obtain ⟨j, hj, rfl⟩ := qid_surjective hn ha (hqs q hq)
  rcases Nat.lt_or_eq_of_le (show j ≤ i by omega) with hlt | rfl
  · exact htried j hlt hq
  · exact hlast hq

theorem Moved.tried {m m' : Shared τ} {p p' : Thread τ} (h : Moved m p m' p') (hi : Inv m)
    (ht : Tried m p) : Tried m' p' := by
  have hpos := hi.splits_pos
  have hsucc : ∀ {a i : Nat} {qs : List Nat}, (∀ j < i, qid m.num_splits a j ∉ qs) →
      qid m.num_splits a i ∉ qs → ∀ j < i + 1, qid m.num_splits a j ∉ qs := by
    intro a i qs hall hlast j hj
    rcases Nat.lt_succ_iff_lt_or_eq.mp hj with hj | rfl
    · exact hall j hj
    · exact hlast
  cases h with
  | callEmplace | callPop | insert | remove | refuse | miss => trivial
  | claimTail | claimHead => exact ⟨qidStart_lt hpos, hpos, nofun⟩
  | full hfull hlt => exact ⟨ht.1, hlt, hsucc ht.2.2 hfull⟩
  | empty hempty hlt => exact ⟨ht.1, hlt, hsucc ht.2.2 hempty⟩

theorem Moved.verdicts {m m' : Shared τ} {p p' : Thread τ} (h : Moved m p m' p')
    (hn : m.num_splits ≤ idxMod) (ht : Tried m p) (hv : Verdicts m) : Verdicts m' := by
  cases h with
  | callEmplace | callPop | full | empty => exact hv
  | claimTail | claimHead | insert | remove => exact ⟨hv.refusals, hv.misses⟩
  | refuse hfull hge =>
    refine ⟨fun qs hqs => ?_, hv.misses⟩
    rcases List.mem_append.mp hqs with hqs | hqs
    · exact hv.refusals qs hqs
    · rw [List.mem_singleton.mp hqs]
      exact eq_nil_of_tried hn ht.1 hge (fun q hq => (mem_roomy.mp hq).1) ht.2.2 hfull
  | miss hempty hge =>
    refine ⟨hv.refusals, fun qs hqs => ?_⟩
    rcases List.mem_append.mp hqs with hqs | hqs
    · exact hv.misses qs hqs
    · rw [List.mem_singleton.mp hqs]
      exact eq_nil_of_tried hn ht.1 hge (fun q hq => (mem_loaded.mp hq).1) ht.2.2 hempty

theorem Moved.num_splits {m m' : Shared τ} {p p' : Thread τ} (h : Moved m p m' p') :
    m'.num_splits = m.num_splits := by
  cases h <;> rfl

/-! ## Splits without slots -/

/-- Nothing goes in, and nothing comes out. -/
structure Slotless (m : Shared τ) : Prop where
  splits : ∀ q, m.splits_ q = { depth := 0 }
  emplaced : m.hist.emplaced = []
  popped : m.hist.popped = []
  removed : ∀ q, m.hist.removed q = []
  verdicts : Verdicts m

namespace Slotless

variable {m : Shared τ}

theorem conserves (h : Slotless m) : Conserves m where
  tickets := by simp [h.emplaced, h.popped, h.splits, tickets, Ring.size]
  order := fun q => by simp [h.removed q]

theorem roomy (h : Slotless m) : m.roomy = [] :=
  List.eq_nil_iff_forall_not_mem.mpr fun q hq => by
    have hlt := (mem_roomy.mp hq).2
    rw [h.splits q] at hlt
    exact absurd hlt (Nat.not_lt_zero _)

theorem loaded (h : Slotless m) : m.loaded = [] :=
  List.eq_nil_iff_forall_not_mem.mpr fun q hq => by
    have hlt := (mem_loaded.mp hq).2
    rw [h.splits q] at hlt
    exact absurd hlt (Nat.lt_irrefl _)

theorem refuse (h : Slotless m) :
    Slotless { m with hist := { m.hist with refusals := m.hist.refusals ++ [m.roomy] } } := by
  refine { h with verdicts := ⟨fun qs hqs => ?_, h.verdicts.misses⟩ }
  rcases List.mem_append.mp hqs with hqs | hqs
  · exact h.verdicts.refusals qs hqs
  · rw [List.mem_singleton.mp hqs, h.roomy]

theorem miss (h : Slotless m) :
    Slotless { m with hist := { m.hist with misses := m.hist.misses ++ [m.loaded] } } := by
  refine { h with verdicts := ⟨h.verdicts.refusals, fun qs hqs => ?_⟩ }
  rcases List.mem_append.mp hqs with hqs | hqs
  · exact h.verdicts.misses qs hqs
  · rw [List.mem_singleton.mp hqs, h.loaded]

theorem advance {m' : Shared τ} {p p' : Thread τ} {a : Act τ} (h : Slotless m)
    (ha : advance m p a = some (m', p')) : Slotless m' := by
  cases p with
  | idle => cases a <;> cases ha <;> exact h
  | claimTail tkt =>
    cases a <;> cases ha
    exact { h with verdicts := ⟨h.verdicts.refusals, h.verdicts.misses⟩ }
  | claimHead =>
    cases a <;> cases ha
    exact { h with verdicts := ⟨h.verdicts.refusals, h.verdicts.misses⟩ }
  | tryEmplace tkt b i =>
    cases a with
    | emplace _ | pop => cases ha
    | access =>
      have he : (m.splits_ (qid m.num_splits b i)).emplaceSerial fixedSpscFlags tkt =
          (none, m.splits_ (qid m.num_splits b i)) := by
        rw [h.splits]
        rfl
      simp only [SplitTicketQueue.advance, he, setSplit_self] at ha
      split at ha <;> cases ha
      · exact h
      · exact h.refuse
  | tryPop b i =>
    cases a with
    | emplace _ | pop => cases ha
    | access =>
      have hp : (m.splits_ (qid m.num_splits b i)).pop =
          (none, m.splits_ (qid m.num_splits b i)) := by
        rw [h.splits]
        rfl
      simp only [SplitTicketQueue.advance, hp, setSplit_self] at ha
      split at ha <;> cases ha
      · exact h
      · exact h.miss

end Slotless

/-! ## Runs -/

theorem init_slotless (num_splits : Nat) : Slotless (init ι τ num_splits 0).shared :=
  ⟨fun _ => rfl, rfl, rfl, fun _ => rfl, nofun, nofun⟩

theorem init_inv {num_splits depth : Nat} (hn : 0 < num_splits) (hd : 0 < depth) :
    Inv (init ι τ num_splits depth).shared where
  splits_pos := hn
  holds := fun _ => .init hd
  le := fun _ => Nat.le_refl _
  order := fun _ => rfl
  tickets := by simp [init, Hist.held]

variable [DecidableEq ι]

theorem step_cases {s t : State ι τ} {l : ι × Act τ} (hi : Inv s.shared) (hg : Guarded s l)
    (h : step s l = some t) :
    ∃ m p, Moved s.shared (s.pc l.1) m p ∧ t = ⟨m, Function.update s.pc l.1 p⟩ := by
  obtain ⟨m, p, he, rfl⟩ := Pool.step_cases h
  refine ⟨m, p, advance_cases hi (fun tkt b i hp => ?_) he, rfl⟩
  rw [Guarded, hp] at hg
  exact hg

/-- What calls keep that do not overlap. -/
structure Solo (s : State ι τ) : Prop where
  inv : Inv s.shared
  splits_le : s.shared.num_splits ≤ idxMod
  tried : ∀ i, Tried s.shared (s.pc i)
  verdicts : Verdicts s.shared

theorem step_solo {s t : State ι τ} {l : ι × Act τ} (h : Solo s) (hg : Guarded s l)
    (ha : Alone s l) (hs : step s l = some t) : Solo t := by
  obtain ⟨m, p, hm, rfl⟩ := step_cases h.inv hg hs
  refine ⟨hm.inv h.inv, by rw [hm.num_splits]; exact h.splits_le, fun j => ?_,
    hm.verdicts h.splits_le (h.tried _) h.verdicts⟩
  show Tried m (Function.update s.pc l.1 p j)
  by_cases hj : j = l.1
  · subst hj
    rw [Function.update_self]
    exact hm.tried h.inv (h.tried _)
  · rw [Function.update_of_ne hj, ha j hj]
    trivial

/-- **No ticket is lost, each split is in order, and null means full or empty.**
In every run that stays within the widths of the counters and indices; the last
part in runs without overlap, for as many splits as an index of 32 bits tells. -/
theorem guarded_conserves {num_splits depth : Nat} {ls : List (ι × Act τ)} {s : State ι τ}
    (hn : 0 < num_splits) (h : Run step Guarded (init ι τ num_splits depth) ls s) :
    Conserves s.shared ∧ (num_splits ≤ idxMod →
      Run step (fun s l => Guarded s l ∧ Alone s l) (init ι τ num_splits depth) ls s →
        Verdicts s.shared) := by
  rcases Nat.eq_zero_or_pos depth with rfl | hd
  · have hz : Slotless s.shared := by
      refine h.invariant (I := fun s => Slotless s.shared) (init_slotless num_splits) ?_
      intro t l u hi _ hs
      obtain ⟨m, p, he, rfl⟩ := Pool.step_cases hs
      exact hi.advance he
    exact ⟨hz.conserves, fun _ _ => hz.verdicts⟩
  constructor
  · have hi : Inv s.shared := h.invariant (I := fun s => Inv s.shared) (init_inv hn hd) ?_
    · exact hi.conserves
    · intro t l u hi hg hs
      obtain ⟨m, p, hm, rfl⟩ := step_cases hi hg hs
      exact hm.inv hi
  · intro hle halone
    have hs : Solo s := by
      refine halone.invariant ⟨init_inv hn hd, hle, fun _ => trivial, nofun, nofun⟩ ?_
      exact fun t l u hi hg hs => step_solo hi hg.1 hg.2 hs
    exact hs.verdicts

private def emplaces (i : Fin 2) (tkt tries : Nat) : List (Fin 2 × Act Nat) :=
  (i, .emplace tkt) :: List.replicate (tries + 1) (i, .access)

private def pops (i : Fin 2) (tries : Nat) : List (Fin 2 × Act Nat) :=
  (i, .pop) :: List.replicate (tries + 1) (i, .access)

/-- Two splits of one slot: a third ticket is refused, a third pop finds nothing. -/
theorem guarded_conserves_two : ∃ s : State (Fin 2) Nat,
    s.shared.hist.popped = [some 10, some 20] ∧ s.shared.hist.refusals = [[]] ∧
    Conserves s.shared ∧ Verdicts s.shared := by
  let ls :=
    emplaces 0 10 1 ++ emplaces 1 20 1 ++ emplaces 0 30 2 ++ pops 1 1 ++ pops 0 1 ++ pops 1 2
  have hs : (execOk step (fun s l => Guarded s l ∧ Alone s l) (init (Fin 2) Nat 2 1) ls).map
      (fun s => (s.shared.hist.popped, s.shared.hist.refusals)) =
      some ([some 10, some 20], [[]]) := by decide +kernel
  obtain ⟨s, hs, hv⟩ := Option.map_eq_some_iff.mp hs
  obtain ⟨hp, hr⟩ := Prod.mk.inj hv
  have halone := run_of_execOk hs
  have hsound := guarded_conserves (by decide) (halone.mono fun _ _ h => h.1)
  exact ⟨s, hp, hr, hsound.1, hsound.2 (by decide) halone⟩

/-! ## A split of more than 2^32 slots -/

/-- `k` tickets have gone to the only split, which has 2^32 + 1 slots. -/
structure Filled (s : State Nat Nat) (k : Nat) : Prop where
  pc : s.pc 0 = .idle
  num_splits : s.shared.num_splits = 1
  ring : (s.shared.splits_ 0).Long k

theorem Filled.emplace {s : State Nat Nat} {k : Nat} (h : Filled s k) (hk : k < idxMod + 1) :
    ∃ t, exec step s [(0, .emplace 7), (0, .access), (0, .access)] = some t ∧ Filled t (k + 1) := by
  have hqid : ∀ rr, qid 1 (qidStart 1 rr) 0 = 0 := fun rr => by simp [qid, Nat.mod_one]
  obtain ⟨r, he, hlong⟩ := h.ring.emplaceSerial hk 7
  let t : State Nat Nat := ⟨{ s.shared with
    splits_ := Function.update s.shared.splits_ 0 r
    rr_tail_ := wordAdd rrMod s.shared.rr_tail_ 1
    hist := s.shared.hist.insert 0 7 }, Function.update s.pc 0 .idle⟩
  have hexec : exec step s [(0, .emplace 7), (0, .access), (0, .access)] = some t := by
    simp [exec, step, Pool.step, advance, h.pc, h.num_splits, hqid, he, Shared.setSplit, t]
  have hpc : t.pc 0 = .idle := by simp only [t, Function.update_self]
  have hsplit : t.shared.splits_ 0 = r := by simp only [t, Function.update_self]
  exact ⟨t, hexec, hpc, h.num_splits, hsplit ▸ hlong⟩

theorem fill {k : Nat} (hk : k ≤ idxMod + 1) :
    ∃ ls s, exec step (init Nat Nat 1 (idxMod + 1)) ls = some s ∧ Filled s k := by
  induction k with
  | zero => exact ⟨[], _, rfl, rfl, rfl, rfl, rfl, rfl, rfl⟩
  | succ k ih =>
    obtain ⟨ls, s, hs, hf⟩ := ih (Nat.le_of_succ_le hk)
    obtain ⟨t, ht, hf'⟩ := hf.emplace hk
    refine ⟨ls ++ [(0, .emplace 7), (0, .access), (0, .access)], t, ?_, hf'⟩
    rw [exec_append, hs]
    exact ht

/-- **A long split loses a ticket.** One split of 2^32 + 1 slots, and as many
tickets: the index of the last one, cut to 32 bits, is that of the first, whose
ticket is overwritten, and the last slot stays empty. -/
theorem long_split_loses : ¬ ∀ (num_splits depth : Nat) (ls : List (Nat × Act Nat))
    (s : State Nat Nat), 0 < num_splits → 0 < depth →
    Run step Unrestricted (init Nat Nat num_splits depth) ls s → Conserves s.shared := by
  intro h
  obtain ⟨ls, s, hs, hf⟩ := fill (k := idxMod + 1) (Nat.le_refl _)
  have hc := h 1 (idxMod + 1) ls s (by decide) (by decide) (run_iff_exec.mpr hs)
  obtain ⟨hdepth, hhead, htail, hlast⟩ := hf.ring
  have hsize : (s.shared.splits_ 0).size = idxMod + 1 := by
    rw [Ring.size, hhead, htail]
    rfl
  have hmem : none ∈ tickets (s.shared.splits_ 0) := by
    refine List.mem_map.mpr
      ⟨idxMod, List.mem_range.mpr (by rw [hsize]; exact Nat.lt_succ_self _), ?_⟩
    simp only [hhead, hdepth, Nat.zero_add, Nat.mod_eq_of_lt (Nat.lt_succ_self _), hlast]
  have hsum : none ∈ (s.shared.hist.popped : Multiset (Option Nat)) +
      ∑ q ∈ Finset.range s.shared.num_splits, (tickets (s.shared.splits_ q) : Multiset _) := by
    rw [hf.num_splits, Finset.sum_range_one]
    exact Multiset.mem_add.mpr (.inr hmem)
  rw [hc.tickets] at hsum
  obtain ⟨v, -, hv⟩ := List.mem_map.mp (Multiset.mem_coe.mp hsum)
  cases hv

end HermesShm.Ipc.SplitTicketQueue
