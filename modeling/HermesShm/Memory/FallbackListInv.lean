import HermesShm.Memory.FallbackList

/-! # Current steps keep the list of large pages

Where every store of `tail_shm_` and `length_` finds the value it was computed
from, and the owner pops the entry its walk stopped at, the list is what the
history of frees and allocations leaves. -/
namespace HermesShm.Memory.LifoListQueue
open HermesShm.Base
open Lifo (live PopsLive)

variable {ι ν : Type*}

theorem Pc.Ok.entry_notMem {s : Shared ν} {ns : List ν} {p : Pc ν} {n : ν} (h : p.Ok s ns)
    (hp : p.entry = some n) : n ∉ ns := by
  cases p with
  | storeNext m tail => cases hp; exact h
  | storeTail m => cases hp; exact h
  | _ => cases hp

theorem Pc.Ok.length_pos {s : Shared ν} {ns : List ν} {p : Pc ν} (h : p.Ok s ns) (hp : p.Takes) :
    1 ≤ s.queue.length_ := by
  cases p with
  | idle | storeNext _ _ | storeTail _ | loadLength | storeLength _ => exact hp.elim
  | begin _ | downLoad _ | downStore _ _ => exact h
  | advance _ _ | popSize _ | popTail _ | popNext _ _ | popStore _ _ _ | unlinkNext _ _
  | unlinkStore _ _ _ => exact h.1

/-- What another thread's step must leave alone. -/
theorem Pc.Ok.stable {s s' : Shared ν} {ns ns' : List ν} {p : Pc ν} (h : p.Ok s ns)
    (hentry : ∀ n, p.entry = some n → n ∉ ns')
    (htake : p.Takes → s.queue.length_ ≤ s'.queue.length_ ∧
      ∀ n ∈ ns, n ∈ ns' ∧ s'.next_shm_ n = s.next_shm_ n) : p.Ok s' ns' := by
  cases p with
  | idle | loadLength | storeLength _ => trivial
  | storeNext n tail => exact hentry n rfl
  | storeTail n => exact hentry n rfl
  | begin _ | downLoad _ | downStore _ _ => exact h.trans (htake trivial).1
  | advance _ n | popSize n | popTail n =>
    obtain ⟨hlen, hmem⟩ := htake trivial
    exact ⟨h.1.trans hlen, (hmem n h.2).1⟩
  | popNext page val =>
    obtain ⟨hlen, hmem⟩ := htake trivial
    exact ⟨h.1.trans hlen, (hmem page h.2.1).1, h.2.2⟩
  | popStore page val next =>
    obtain ⟨hlen, hmem⟩ := htake trivial
    obtain ⟨hpos, hpage, hval, hnext⟩ := h
    exact ⟨hpos.trans hlen, (hmem page hpage).1, hval, (hmem page hpage).2.trans hnext⟩
  | unlinkNext prior page =>
    obtain ⟨hlen, hmem⟩ := htake trivial
    obtain ⟨hpos, hpage, hprior, hlink⟩ := h
    exact ⟨hpos.trans hlen, (hmem page hpage).1, (hmem prior hprior).1,
      (hmem prior hprior).2.trans hlink⟩
  | unlinkStore prior page next =>
    obtain ⟨hlen, hmem⟩ := htake trivial
    obtain ⟨hpos, hpage, hprior, hlink, hnext⟩ := h
    exact ⟨hpos.trans hlen, (hmem page hpage).1, (hmem prior hprior).1,
      (hmem prior hprior).2.trans hlink, (hmem page hpage).2.trans hnext⟩

variable [DecidableEq ν]

structure Inv (d : ι) (s : Shared ν) (pc : ι → Pc ν) (es : List (Lifo.Event ν)) : Prop where
  chain : Chain (fun n => some (s.next_shm_ n)) s.queue.tail_shm_ (live es) none
  popsLive : PopsLive es
  roles : Roles (Pc.Ok s (live es)) Pc.entry Pc.Takes d pc
  nonneg : 0 ≤ s.queue.length_
  length : ∃ linked unlinked, Count Pc.Linked pc linked ∧ Count Pc.Unlinked pc unlinked ∧
    s.queue.length_ = (live es).length - linked + unlinked

/-- What a call must meet to begin. -/
def Begins (d : ι) (pc : ι → Pc ν) (es : List (Lifo.Event ν)) (i : ι) : Act ν → Prop
  | .enqueue n => n ∉ live es ∧ ∀ j, (pc j).entry ≠ some n
  | .allocate _ => i = d
  | .access => True

/-- The invariant looks at the links of the list's own pages. -/
theorem Inv.frame {d : ι} {s s' : Shared ν} {pc : ι → Pc ν} {es : List (Lifo.Event ν)}
    (h : Inv d s pc es) (hq : s'.queue = s.queue)
    (hlive : ∀ n ∈ live es, s'.next_shm_ n = s.next_shm_ n) : Inv d s' pc es := by
  constructor
  · rw [hq]
    exact h.chain.congr fun n hn => congrArg some (hlive n hn)
  · exact h.popsLive
  · refine h.roles.mono fun i hok => hok.stable (fun n hn => hok.entry_notMem hn) fun _ => ?_
    exact ⟨by rw [hq], fun n hn => ⟨hn, hlive n hn⟩⟩
  · rw [hq]; exact h.nonneg
  · rw [hq]; exact h.length

/-- What follows a page of the list is in the list. -/
theorem Inv.next_mem {d : ι} {s : Shared ν} {pc : ι → Pc ν} {es : List (Lifo.Event ν)} {n : ν}
    (h : Inv d s pc es) (hn : n ∈ live es) : ∀ m, s.next_shm_ n = some m → m ∈ live es := by
  intro m hm
  obtain ⟨as, cs, hns⟩ := h.chain.split_at hn (congrArg some hm)
  rw [hns]
  simp

theorem Inv.silent {d : ι} {s : Shared ν} {pc : ι → Pc ν} {es : List (Lifo.Event ν)} {p p' : Pc ν}
    (h : Inv d s pc es) (he : event p p' = none) : Inv d s pc (es ++ (event p p').toList) := by
  rw [he, Option.toList_none, List.append_nil]
  exact h

/-- Only the owner takes pages, so while it acts the others only hold theirs. -/
theorem Inv.others {d i : ι} {s s' : Shared ν} {pc : ι → Pc ν} {es : List (Lifo.Event ν)}
    (h : Inv d s pc es) (hid : i = d)
    {ns : List ν} (hsub : ∀ n ∈ ns, n ∈ live es) : ∀ j, j ≠ i → (pc j).Ok s' ns := by
  intro j hj
  have hokj := h.roles.ok j
  refine hokj.stable (fun m hm hmem => hokj.entry_notMem hm (hsub m hmem)) fun ht => ?_
  exact absurd ((h.roles.task j ht).trans hid.symm) hj

theorem init_inv (d : ι) (next : ν → Option ν) :
    Inv d { next_shm_ := next } (fun _ => .idle) [] where
  chain := rfl
  popsLive := Lifo.popsLive_nil
  roles := ⟨fun _ => trivial, nofun, nofun⟩
  nonneg := le_rfl
  length := ⟨0, 0, Count.zero fun _ => id, Count.zero fun _ => id, rfl⟩

variable [DecidableEq ι] {d i : ι} {s s' : Shared ν} {pc : ι → Pc ν} {es : List (Lifo.Event ν)}
  {p q : Pc ν} {n page prior val : ν} {tail next : Option ν} {size : ν → Nat}

/-- A step that changes nothing but the thread's program point. -/
theorem Inv.move (h : Inv d s pc es) (hi : pc i = q)
    (hok : p.Ok s (live es))
    (hentry : ∀ n, p.entry = some n → ∀ j, j ≠ i → (pc j).entry ≠ some n)
    (htake : p.Takes → i = d) (hlinked : p.Linked ↔ q.Linked)
    (hunlinked : p.Unlinked ↔ q.Unlinked) : Inv d s (Function.update pc i p) es := by
  have hroles := h.roles.update hok hentry htake fun j _ => h.roles.ok j
  obtain ⟨linked, unlinked, hl, hu, hlength⟩ := h.length
  exact ⟨h.chain, h.popsLive, hroles, h.nonneg,
    linked, unlinked, hl.same hi hlinked, hu.same hi hunlinked, hlength⟩

theorem Inv.store (h : Inv d s pc es) (hi : pc i = .storeNext n tail) :
    Inv d { s with next_shm_ := Function.update s.next_shm_ n tail }
      (Function.update pc i (.storeTail n)) es := by
  have hent : (pc i).entry = some n := by rw [hi]; rfl
  have hfresh : n ∉ live es := (h.roles.ok i).entry_notMem hent
  refine Inv.frame (s := s) ?_ rfl ?_
  · exact h.move hi hfresh (h.roles.own hent.symm) nofun Iff.rfl
      Iff.rfl
  · intro m hm
    refine Function.update_of_ne ?_ _ _
    intro he
    exact hfresh (by rwa [← he])

/-- The store that ends the linking of an entry to a tail that is still there. -/
theorem Inv.link (h : Inv d s pc es) (hi : pc i = .storeTail n)
    (hcur : s.next_shm_ n = s.queue.tail_shm_) :
    Inv d { s with queue := { s.queue with tail_shm_ := some n } }
      (Function.update pc i .loadLength) (es ++ [.push n]) := by
  have hent : (pc i).entry = some n := by rw [hi]; rfl
  obtain ⟨linked, unlinked, hl, hu, hlength⟩ := h.length
  refine ⟨?_, h.popsLive.concat nofun, h.roles.update trivial nofun nofun ?_, h.nonneg, linked + 1,
    unlinked, hl.enter hi id trivial, hu.same hi Iff.rfl, ?_⟩
  · rw [Lifo.live_push]
    refine ⟨rfl, s.queue.tail_shm_, congrArg some hcur, h.chain⟩
  · intro j hj
    have hokj := h.roles.ok j
    rw [Lifo.live_push]
    refine hokj.stable (fun m hm => ?_)
      fun _ => ⟨le_rfl, fun m hm => ⟨List.mem_cons_of_mem _ hm, rfl⟩⟩
    rw [List.mem_cons, not_or]
    refine ⟨?_, hokj.entry_notMem hm⟩
    intro he
    exact hj (h.roles.item j i n (by rwa [← he]) hent)
  · rw [Lifo.live_push, List.length_cons]
    simp only [hlength]
    omega

theorem Inv.countUp (h : Inv d s pc es) (hi : pc i = .storeLength s.queue.length_) :
    Inv d { s with queue := { s.queue with length_ := s.queue.length_ + 1 } }
      (Function.update pc i .idle) es := by
  obtain ⟨linked, unlinked, hl, hu, hlength⟩ := h.length
  have hlpos := hl.pos (i := i) (by rw [hi]; trivial)
  refine ⟨h.chain, h.popsLive, h.roles.update trivial nofun nofun ?_, Int.le_add_one h.nonneg,
    linked - 1, unlinked, hl.leave hi trivial id, hu.same hi Iff.rfl, ?_⟩
  · intro j _
    have hokj := h.roles.ok j
    refine hokj.stable (fun m hm => hokj.entry_notMem hm) fun _ => ?_
    exact ⟨Int.le_add_one le_rfl, fun m hm => ⟨hm, rfl⟩⟩
  · simp only [hlength]
    omega

/-- `dequeue()` takes the first page. -/
theorem Inv.pop (h : Inv d s pc es) (hi : pc i = .popStore page val next)
    (hcur : s.queue.tail_shm_ = some val) :
    Inv d { s with queue := { s.queue with tail_shm_ := next } }
      (Function.update pc i (.downLoad page)) (es ++ [.pop page]) := by
  have hid : i = d := h.roles.task i (by rw [hi]; trivial)
  obtain ⟨hpos, hpage, rfl, hnext⟩ : 1 ≤ s.queue.length_ ∧ page ∈ live es ∧ val = page ∧
      s.next_shm_ page = next := by
    have := h.roles.ok i
    rwa [hi] at this
  have hhead : (live es).head? = some val := by rw [← h.chain.head_none, hcur]
  obtain ⟨rest, hrest⟩ := List.head?_eq_some_iff.mp hhead
  have herase : live (es ++ [.pop val]) = rest := by
    rw [Lifo.live_pop, hrest, List.erase_cons_head]
  obtain ⟨linked, unlinked, hl, hu, hlength⟩ := h.length
  refine ⟨?_, h.popsLive.concat ?_, h.roles.update hpos nofun (fun _ => hid) (h.others hid ?_),
    h.nonneg, linked, unlinked + 1, hl.same hi Iff.rfl,
    hu.enter hi id trivial, ?_⟩
  · have hchain := h.chain
    rw [hrest, hcur] at hchain
    obtain ⟨-, m, hm, hchain⟩ := hchain
    rw [herase, ← hnext, Option.some.inj hm]
    exact hchain
  · rintro m ⟨⟩
    exact hpage
  · intro m hm
    rw [Lifo.live_pop] at hm
    exact List.mem_of_mem_erase hm
  · rw [herase]
    rw [hrest, List.length_cons] at hlength
    simp only [hlength]
    omega

/-- `dequeue(it)` takes a page with a prior one. -/
theorem Inv.unlink (h : Inv d s pc es) (hi : pc i = .unlinkStore prior page next) :
    Inv d { s with next_shm_ := Function.update s.next_shm_ prior next }
      (Function.update pc i (.downLoad page)) (es ++ [.pop page]) := by
  have hid : i = d := h.roles.task i (by rw [hi]; trivial)
  obtain ⟨hpos, hpage, hprior, hlink, hnext⟩ : 1 ≤ s.queue.length_ ∧ page ∈ live es ∧
      prior ∈ live es ∧ s.next_shm_ prior = some page ∧ s.next_shm_ page = next := by
    have := h.roles.ok i
    rwa [hi] at this
  obtain ⟨as, cs, hns⟩ := h.chain.split_at hprior (congrArg some hlink)
  have hnd := h.chain.nodup
  rw [hns] at hnd
  have herase : live (es ++ [.pop page]) = as ++ prior :: cs := by
    have hne : prior ≠ page := fun he =>
      (List.nodup_cons.mp (List.nodup_append.mp hnd).2.1).1 (he ▸ List.mem_cons_self)
    have has : page ∉ as := fun hmem =>
      (List.nodup_append.mp hnd).2.2 page hmem page (by simp) rfl
    rw [Lifo.live_pop, hns, List.erase_append_right _ has,
      List.erase_cons_tail (by simpa using hne), List.erase_cons_head]
  obtain ⟨linked, unlinked, hl, hu, hlength⟩ := h.length
  refine ⟨?_, h.popsLive.concat ?_, h.roles.update hpos nofun (fun _ => hid) (h.others hid ?_),
    h.nonneg, linked, unlinked + 1, hl.same hi Iff.rfl,
    hu.enter hi id trivial, ?_⟩
  · have hchain := h.chain
    rw [hns] at hchain
    rw [herase]
    refine (hchain.unlink (congrArg some hnext)).congr fun m _ => ?_
    exact congrFun (Function.comp_update some s.next_shm_ prior next) m
  · rintro m ⟨⟩
    exact hpage
  · intro m hm
    rw [Lifo.live_pop] at hm
    exact List.mem_of_mem_erase hm
  · rw [herase]
    rw [hns] at hlength
    simp only [List.length_append, List.length_cons] at hlength ⊢
    simp only [hlength]
    omega

theorem Inv.countDown (h : Inv d s pc es) (hi : pc i = .downStore page s.queue.length_) :
    Inv d { s with queue := { s.queue with length_ := s.queue.length_ - 1 } }
      (Function.update pc i .idle) es := by
  have hid : i = d := h.roles.task i (by rw [hi]; trivial)
  have hpos : 1 ≤ s.queue.length_ := (h.roles.ok i).length_pos (by rw [hi]; trivial)
  obtain ⟨linked, unlinked, hl, hu, hlength⟩ := h.length
  have hupos := hu.pos (i := i) (by rw [hi]; trivial)
  refine ⟨h.chain, h.popsLive, h.roles.update trivial nofun nofun (h.others hid fun _ hn => hn),
    Int.sub_nonneg_of_le hpos, linked, unlinked - 1, hl.same hi Iff.rfl,
    hu.leave hi trivial id, ?_⟩
  simp only [hlength]
  omega

theorem look_inv (h : Inv d s pc es) {round : Nat} {prior : Option ν} {entry : Option ν}
    (hid : i = d) (hpos : 1 ≤ s.queue.length_)
    (hentry : ∀ n, entry = some n → n ∈ live es)
    (hprior : ∀ r, prior = some r → r ∈ live es ∧ s.next_shm_ r = entry)
    (hi : pc i = q) (hl : ¬ q.Linked) (hu : ¬ q.Unlinked) :
    Inv d s (Function.update pc i (look size round prior entry)) es := by
  cases entry with
  | none => exact h.move hi trivial nofun nofun (iff_of_false id hl) (iff_of_false id hu)
  | some page =>
    have hpage := hentry page rfl
    simp only [look]
    split
    · cases prior with
      | none =>
        exact h.move hi ⟨hpos, hpage⟩ nofun (fun _ => hid) (iff_of_false id hl) (iff_of_false id hu)
      | some r =>
        obtain ⟨hr, hlink⟩ := hprior r rfl
        exact h.move hi ⟨hpos, hpage, hr, hlink⟩ nofun (fun _ => hid) (iff_of_false id hl)
          (iff_of_false id hu)
    · exact h.move hi ⟨hpos, hpage⟩ nofun (fun _ => hid) (iff_of_false id hl) (iff_of_false id hu)

theorem access_inv (h : Inv d s pc es) (hc : Current s (pc i))
    (hs : access size s (pc i) = some (s', p)) :
    Inv d s' (Function.update pc i p) (es ++ (event (pc i) p).toList) := by
  have hok := h.roles.ok i
  have htask := h.roles.task i
  cases hi : pc i with
  | idle => rw [hi] at hs; cases hs
  | storeNext n tail =>
    rw [hi] at hs
    cases hs
    refine Inv.silent ?_ rfl
    exact h.store hi
  | storeTail n =>
    rw [hi] at hs hc
    cases hs
    exact h.link hi hc
  | loadLength =>
    rw [hi] at hs
    cases hs
    refine Inv.silent ?_ rfl
    exact h.move hi trivial nofun nofun Iff.rfl Iff.rfl
  | storeLength length =>
    rw [hi] at hs hc
    cases hs
    obtain rfl : s.queue.length_ = length := hc
    refine Inv.silent ?_ rfl
    exact h.countUp hi
  | begin round =>
    rw [hi] at hs hok htask
    cases hs
    refine Inv.silent ?_ rfl
    refine look_inv h (htask trivial) hok ?_ nofun hi id id
    intro n hn
    rw [h.chain.head_none] at hn
    exact List.mem_of_head? hn
  | advance round entry =>
    rw [hi] at hs hok htask
    cases hs
    refine Inv.silent ?_ rfl
    refine look_inv h (htask trivial) hok.1 (h.next_mem hok.2) ?_ hi id id
    rintro r ⟨⟩
    exact ⟨hok.2, rfl⟩
  | popSize page =>
    rw [hi] at hs hok htask
    have hpos : ¬ s.queue.length_ = 0 := by
      have := hok.1
      omega
    simp only [access, if_neg hpos] at hs
    cases hs
    refine Inv.silent ?_ rfl
    exact h.move hi hok nofun (fun _ => htask trivial) Iff.rfl
      Iff.rfl
  | popTail page =>
    rw [hi] at hs hok htask hc
    have htail : s.queue.tail_shm_ = some page := hc
    simp only [access, htail, Option.map_some] at hs
    cases hs
    refine Inv.silent ?_ rfl
    exact h.move hi ⟨hok.1, hok.2, rfl⟩ nofun (fun _ => htask trivial) Iff.rfl
      Iff.rfl
  | popNext page val =>
    rw [hi] at hs hok htask
    cases hs
    refine Inv.silent ?_ rfl
    exact h.move hi ⟨hok.1, hok.2.1, hok.2.2, by rw [hok.2.2]⟩ nofun (fun _ => htask trivial)
      Iff.rfl Iff.rfl
  | popStore page val next =>
    rw [hi] at hs hc
    cases hs
    exact h.pop hi hc
  | unlinkNext prior page =>
    rw [hi] at hs hok htask
    cases hs
    refine Inv.silent ?_ rfl
    obtain ⟨hpos, hpage, hprior, hlink⟩ := hok
    exact h.move hi ⟨hpos, hpage, hprior, hlink, rfl⟩ nofun (fun _ => htask trivial)
      Iff.rfl Iff.rfl
  | unlinkStore prior page next =>
    rw [hi] at hs
    cases hs
    exact h.unlink hi
  | downLoad page =>
    rw [hi] at hs hok htask
    cases hs
    refine Inv.silent ?_ rfl
    exact h.move hi hok nofun (fun _ => htask trivial) Iff.rfl
      Iff.rfl
  | downStore page length =>
    rw [hi] at hs hc
    cases hs
    obtain rfl : s.queue.length_ = length := hc
    refine Inv.silent ?_ rfl
    exact h.countDown hi

theorem act_inv {a : Act ν} (h : Inv d s pc es) (hb : Begins d pc es i a)
    (hc : Current s (pc i)) (hs : act size s (pc i) a = some (s', p)) :
    Inv d s' (Function.update pc i p) (es ++ (event (pc i) p).toList) := by
  unfold act at hs
  split at hs
  · rename_i n hi
    cases hs
    rw [hi]
    refine Inv.silent ?_ rfl
    refine h.move hi hb.1 ?_ nofun Iff.rfl Iff.rfl
    rintro m ⟨⟩ j _
    exact hb.2 j
  · rename_i hi
    cases hs
    rw [hi]
    refine Inv.silent ?_ rfl
    by_cases h0 : s.queue.length_ = 0
    · rw [if_pos h0]
      exact h.move hi trivial nofun nofun Iff.rfl Iff.rfl
    · rw [if_neg h0]
      have hpos : 1 ≤ s.queue.length_ := by
        have := h.nonneg
        omega
      exact h.move hi hpos nofun (fun _ => hb) Iff.rfl Iff.rfl
  · exact access_inv h hc hs
  · cases hs

/-! ## What one step can do to pages and links -/

/-- A thread writes the link of its own page, or of one before a page it takes out. -/
theorem act_next {a : Act ν} {q : Pc ν} (hs : act size s q a = some (s', p))
    (hn : q.entry ≠ some n) (hprior : ∀ page next, q ≠ .unlinkStore n page next) :
    s'.next_shm_ n = s.next_shm_ n := by
  unfold act at hs
  split at hs
  · cases hs; rfl
  · cases hs; rfl
  · cases q with
    | idle => cases hs
    | storeNext m tail =>
      cases hs
      refine Function.update_of_ne ?_ _ _
      intro he
      exact hn (congrArg some he.symm)
    | unlinkStore prior page next =>
      cases hs
      refine Function.update_of_ne ?_ _ _
      intro he
      exact hprior page next (by rw [he])
    | popTail page =>
      obtain ⟨val, -, hr⟩ := Option.map_eq_some_iff.mp hs
      cases hr
      rfl
    | storeTail _ | loadLength | storeLength _ | begin _ | advance _ _ | popSize _ | popNext _ _
    | popStore _ _ _ | unlinkNext _ _ | downLoad _ | downStore _ _ => cases hs; rfl
  · cases hs

omit [DecidableEq ν] in
theorem look_entry (round : Nat) (prior entry : Option ν) :
    (look size round prior entry).entry = none := by
  unfold look
  split
  · rfl
  · split
    · split <;> rfl
    · rfl

/-- A thread comes to a page by a call of `enqueue`. -/
theorem act_entry {a : Act ν} {q : Pc ν} (hs : act size s q a = some (s', p))
    (hp : p.entry = some n) : q.entry = some n ∨ a = .enqueue n := by
  unfold act at hs
  split at hs
  · cases hs; cases hp; exact .inr rfl
  · cases hs
    split at hp <;> cases hp
  · refine .inl ?_
    cases q with
    | idle => cases hs
    | storeNext m tail => cases hs; exact hp
    | popTail page =>
      obtain ⟨val, -, hr⟩ := Option.map_eq_some_iff.mp hs
      cases hr
      cases hp
    | begin round => cases hs; rw [look_entry] at hp; cases hp
    | advance round entry => cases hs; rw [look_entry] at hp; cases hp
    | popSize page =>
      cases hs
      split at hp <;> cases hp
    | unlinkStore _ _ _ | storeTail _ | loadLength | storeLength _ | popNext _ _ | popStore _ _ _
    | unlinkNext _ _ | downLoad _ | downStore _ _ => cases hs; cases hp
  · cases hs

omit [DecidableEq ν] in
theorem event_push {q : Pc ν} (h : event q p = some (.push n)) : q.entry = some n := by
  unfold event at h
  split at h <;> cases h
  rfl

end HermesShm.Memory.LifoListQueue
