import HermesShm.Ipc.UnorderedMap

/-! # The unordered map is a finite map

The buckets hold disjoint chains; the entry of a key is in the bucket of its
hash and in no other place. On such maps every operation does what it does to a
finite map. -/
namespace HermesShm.Ipc.UnorderedMap
open HermesShm.Base
open Slist (Represents)

variable {κ ν : Type}

/-- The nodes of a bucket, each a pointer, a key and a value. -/
abbrev Nodes (κ ν : Type) := List (Ptr × κ × ν)

abbrev ptrs (ns : Nodes κ ν) : List Ptr := ns.map Prod.fst

variable [DecidableEq κ] {hash : κ → Nat} {m m' : UnorderedMap κ ν} {f f' : Model κ ν}
  {ns : Nat → Nodes κ ν}

structure Rep (hash : κ → Nat) (m : UnorderedMap κ ν) (ns : Nat → Nodes κ ν) (f : Model κ ν) :
    Prop where
  pos : 0 < m.buckets_.length_
  max_length : m.buckets_.max_length_ = m.buckets_.length_
  bucket : ∀ i < m.buckets_.length_, ∃ bkt, m.buckets_.data i = some bkt ∧
    Represents m.heap bkt (ns i)
  disjoint : ∀ i < m.buckets_.length_, ∀ j < m.buckets_.length_, i ≠ j →
    ∀ p ∈ ptrs (ns i), p ∉ ptrs (ns j)
  placed : ∀ i < m.buckets_.length_, ∀ n ∈ ns i, hash n.2.1 % m.buckets_.length_ = i
  nodup : ∀ i < m.buckets_.length_, ((ns i).map (·.2.1)).Nodup
  entries : ∀ k v, f.lookup k = some v ↔ ∃ p, (p, k, v) ∈ ns (m.bktId hash k)
  length : m.length_ = f.keys.card

/-! ## Looking for a key -/

theorem findCollisionLoop_spec {h : Slist.Heap (κ × ν)} {ms : Nodes κ ν} {pos : Option Ptr}
    {fuel : Nat} (key : κ) (hc : Chain (Slist.nextPtr h) pos (ptrs ms) none)
    (hd : ∀ n ∈ ms, (h n.1).map (·.data_) = some n.2) (hf : ms.length ≤ fuel) :
    findCollisionLoop h key fuel pos = some ((ms.find? (·.2.1 = key)).map Prod.fst) := by
  induction ms generalizing pos fuel with
  | nil =>
    obtain rfl := hc
    cases fuel <;> rfl
  | cons n ms ih =>
    obtain ⟨rfl, x, hx, hc⟩ := hc
    obtain ⟨e, he, rfl⟩ := Option.map_eq_some_iff.mp hx
    have hv := hd n List.mem_cons_self
    simp only [he, Option.map_some, Option.some.injEq] at hv
    cases fuel with
    | zero => simp at hf
    | succ fuel =>
      simp only [findCollisionLoop, he, Option.bind_eq_bind, Option.bind_some, hv]
      by_cases hk : n.2.1 = key
      · simp [hk]
      · rw [if_neg hk, List.find?_cons_of_neg (by simpa using hk)]
        exact ih hc (fun k hk => hd k (List.mem_cons_of_mem _ hk)) (by simpa using hf)

theorem findCollision_spec {h : Slist.Heap (κ × ν)} {bkt : Slist} {ms : Nodes κ ν} (key : κ)
    (hr : Represents h bkt ms) :
    findCollision h key bkt = some ((ms.find? (·.2.1 = key)).map Prod.fst) := by
  rw [findCollision, hr.begin_, ← hr.next.head_none]
  exact findCollisionLoop_spec key hr.next hr.data (Nat.le_of_eq hr.length.symm)

namespace Rep

theorem bktId_lt (hr : Rep hash m ns f) (key : κ) : m.bktId hash key < m.buckets_.length_ :=
  Nat.mod_lt _ hr.pos

/-- In the bucket of a key, the search stops at its node, or there is none. -/
theorem collision (hr : Rep hash m ns f) (key : κ) :
    ∃ bkt, m.buckets_.data (m.bktId hash key) = some bkt ∧
      Represents m.heap bkt (ns (m.bktId hash key)) ∧
      ((f.lookup key = none ∧ findCollision m.heap key bkt = some none) ∨
        ∃ p v as cs, f.lookup key = some v ∧ findCollision m.heap key bkt = some (some p) ∧
          ns (m.bktId hash key) = as ++ (p, key, v) :: cs) := by
  obtain ⟨bkt, hb, hbr⟩ := hr.bucket _ (hr.bktId_lt key)
  refine ⟨bkt, hb, hbr, ?_⟩
  rw [findCollision_spec key hbr]
  cases hf : (ns (m.bktId hash key)).find? (·.2.1 = key) with
  | none =>
    refine .inl ⟨?_, rfl⟩
    cases hl : f.lookup key with
    | none => rfl
    | some v =>
      obtain ⟨p, hp⟩ := (hr.entries key v).mp hl
      have := List.find?_eq_none.mp hf _ hp
      simp at this
  | some n =>
    obtain ⟨hk, as, cs, hns, -⟩ := List.find?_eq_some_iff_append.mp hf
    obtain ⟨p, k, v⟩ := n
    obtain rfl : k = key := by simpa using hk
    exact .inr ⟨p, v, as, cs, (hr.entries k v).mpr ⟨p, by simp [hns]⟩, rfl, hns⟩

/-- Changing one bucket: what the new heap, bucket and nodes must satisfy. -/
theorem setBucket (hr : Rep hash m ns f) {i n : Nat} {h : Slist.Heap (κ × ν)} {bkt : Slist}
    {ms : Nodes κ ν} (hi : i < m.buckets_.length_) (hb : Represents h bkt ms)
    (hframe : ∀ j < m.buckets_.length_, j ≠ i → ∀ q ∈ ptrs (ns j), h q = m.heap q)
    (hdisj : ∀ j < m.buckets_.length_, j ≠ i → ∀ q ∈ ptrs ms, q ∉ ptrs (ns j))
    (hplaced : ∀ n ∈ ms, hash n.2.1 % m.buckets_.length_ = i)
    (hnodup : (ms.map (·.2.1)).Nodup)
    (hentries : ∀ k v, f'.lookup k = some v ↔
      ∃ p, (p, k, v) ∈ Function.update ns i ms (m.bktId hash k))
    (hlen : n = f'.keys.card) :
    Rep hash { heap := h, buckets_ := m.buckets_.set i bkt, length_ := n }
      (Function.update ns i ms) f' := by
  refine ⟨hr.pos, hr.max_length, fun j hj => ?_, fun j hj k hk hjk => ?_, fun j hj => ?_,
    fun j hj => ?_, hentries, hlen⟩
  · by_cases hji : j = i
    · subst hji
      exact ⟨bkt, Function.update_self .., by rw [Function.update_self]; exact hb⟩
    · obtain ⟨b, hb, hbr⟩ := hr.bucket j hj
      refine ⟨b, (Function.update_of_ne hji ..).trans hb, ?_⟩
      rw [Function.update_of_ne hji]
      exact hbr.congr (hframe j hj hji)
  · by_cases hji : j = i
    · subst hji
      rw [Function.update_self, Function.update_of_ne (Ne.symm hjk)]
      exact hdisj k hk (Ne.symm hjk)
    · rw [Function.update_of_ne hji]
      by_cases hki : k = i
      · subst hki
        rw [Function.update_self]
        exact fun p hp hq => hdisj j hj hji p hq hp
      · rw [Function.update_of_ne hki]
        exact hr.disjoint j hj k hk hjk
  · by_cases hji : j = i
    · subst hji; rw [Function.update_self]; exact hplaced
    · rw [Function.update_of_ne hji]; exact hr.placed j hj
  · by_cases hji : j = i
    · subst hji; rw [Function.update_self]; exact hnodup
    · rw [Function.update_of_ne hji]; exact hr.nodup j hj

/-- A node of a bucket belongs to the map's entry of its key. -/
theorem lookup_of_mem (hr : Rep hash m ns f) {i : Nat} (hi : i < m.buckets_.length_) {p : Ptr}
    {k : κ} {v : ν} (hn : (p, k, v) ∈ ns i) : m.bktId hash k = i ∧ f.lookup k = some v := by
  have hb : m.bktId hash k = i := hr.placed i hi _ hn
  exact ⟨hb, (hr.entries k v).mpr ⟨p, hb ▸ hn⟩⟩

theorem eraseNode (hr : Rep hash m ns f) {i : Nat} (hi : i < m.buckets_.length_) {p : Ptr} {k : κ}
    {v : ν} {as cs : Nodes κ ν} (hns : ns i = as ++ (p, k, v) :: cs) :
    ∃ m', m.eraseCollision i (some p) = some m' ∧
      Rep hash m' (Function.update ns i (as ++ cs)) (f.erase k) ∧ m'.heap p = none ∧
      (∀ q ∉ ptrs (ns i), m'.heap q = m.heap q) ∧
      m'.buckets_.length_ = m.buckets_.length_ := by
  obtain ⟨bkt, hb, hbr⟩ := hr.bucket i hi
  rw [hns] at hbr
  obtain ⟨h', b', he, hr', hfreed, hother⟩ := hbr.erase
  have hout : ∀ j < m.buckets_.length_, j ≠ i → ∀ q ∈ ptrs (ns j), q ∉ ptrs (ns i) :=
    fun j hj hji => hr.disjoint j hj i hi hji
  have hsub : (as ++ cs).Sublist (ns i) := by
    rw [hns]
    exact List.Sublist.append_left (List.sublist_cons_self _ _) _
  obtain ⟨hkb, hlk⟩ := hr.lookup_of_mem hi (p := p) (k := k) (v := v) (by simp [hns])
  have hnd := hr.nodup i hi
  refine ⟨{ heap := h', buckets_ := m.buckets_.set i b', length_ := m.length_ - 1 }, ?_,
    hr.setBucket hi hr' ?_ ?_ ?_ ?_ ?_ ?_, hfreed, fun q hq => hother q (hns ▸ hq), rfl⟩
  · simp only [eraseCollision, hb, Option.bind_eq_bind, Option.bind_some, he]
  · exact fun j hj hji q hq => hother q (hns ▸ hout j hj hji q hq)
  · exact fun j hj hji q hq hqj => hout j hj hji q hqj ((hsub.map _).subset hq)
  · exact fun n hn => hr.placed i hi n (hsub.subset hn)
  · exact (hsub.map _).nodup hnd
  · intro k' v'
    by_cases hk : k' = k
    · subst hk
      rw [Finmap.lookup_erase, hkb, Function.update_self]
      refine ⟨nofun, ?_⟩
      rintro ⟨q, hq⟩
      rw [hns] at hnd
      simp only [List.map_append, List.map_cons, List.nodup_append, List.nodup_cons] at hnd
      rcases List.mem_append.mp hq with hq | hq
      · exact absurd rfl (hnd.2.2 k' (List.mem_map.mpr ⟨_, hq, rfl⟩) k' List.mem_cons_self)
      · exact absurd (List.mem_map.mpr ⟨_, hq, rfl⟩) hnd.2.1.1
    · rw [Finmap.lookup_erase_ne hk, hr.entries]
      by_cases hki : m.bktId hash k' = i
      · rw [hki, Function.update_self, hns]
        simp [hk]
      · rw [Function.update_of_ne hki]
  · rw [Finmap.keys_erase, Finset.card_erase_of_mem, hr.length]
    exact Finmap.mem_keys.mpr (Finmap.mem_of_lookup_eq_some hlk)

theorem append (hr : Rep hash m ns f) {bkt : Slist} {p : Ptr} {k : κ}
    (hb : m.buckets_.data (m.bktId hash k) = some bkt) (hk : f.lookup k = none)
    (hp : m.heap p = none) (v : ν) :
    ∃ h b, Slist.emplaceBack m.heap bkt p (k, v) = some (h, b) ∧
      Rep hash
        { heap := h, buckets_ := m.buckets_.set (m.bktId hash k) b, length_ := m.length_ + 1 }
        (Function.update ns (m.bktId hash k) (ns (m.bktId hash k) ++ [(p, k, v)]))
        (f.insert k v) ∧
      ∀ q, q ≠ p → q ∉ ptrs (ns (m.bktId hash k)) → h q = m.heap q := by
  have hi := hr.bktId_lt k
  obtain ⟨bkt', hb', hbr⟩ := hr.bucket _ hi
  obtain rfl := Option.some.inj (hb.symm.trans hb')
  obtain ⟨h, b, he, hr', hother⟩ := hbr.emplaceBack hp (k, v)
  have hnew : ∀ j < m.buckets_.length_, p ∉ ptrs (ns j) := fun j hj => by
    obtain ⟨b, -, hbr⟩ := hr.bucket j hj
    exact hbr.not_mem hp
  have hkey : ∀ n ∈ ns (m.bktId hash k), n.2.1 ≠ k := fun n hn he => by
    have := (hr.lookup_of_mem hi (p := n.1) (k := n.2.1) (v := n.2.2) hn).2
    rw [he, hk] at this
    cases this
  have hdisj := fun j hj hji => hr.disjoint j hj _ hi hji
  refine ⟨h, b, he, hr.setBucket hi hr' ?_ ?_ ?_ ?_ ?_ ?_, hother⟩
  · intro j hj hji q hq
    exact hother q (fun he => hnew j hj (he ▸ hq)) (hdisj j hj hji q hq)
  · intro j hj hji q hq hqj
    simp only [ptrs, List.map_append, List.mem_append, List.map_cons, List.map_nil,
      List.mem_singleton] at hq
    rcases hq with hq | rfl
    · exact hdisj j hj hji q hqj hq
    · exact hnew j hj hqj
  · intro n hn
    rcases List.mem_append.mp hn with hn | hn
    · exact hr.placed _ hi n hn
    · cases List.mem_singleton.mp hn; rfl
  · rw [List.map_append, List.nodup_append]
    refine ⟨hr.nodup _ hi, List.nodup_singleton _, fun a ha b hb => ?_⟩
    obtain ⟨n, hn, rfl⟩ := List.mem_map.mp ha
    cases List.mem_singleton.mp hb
    exact hkey n hn
  · intro k' v'
    by_cases hkk : k' = k
    · subst hkk
      rw [Finmap.lookup_insert, Function.update_self]
      constructor
      · rintro h
        cases h
        exact ⟨p, by simp⟩
      · rintro ⟨q, hq⟩
        rcases List.mem_append.mp hq with hq | hq
        · exact absurd rfl (hkey _ hq)
        · cases List.mem_singleton.mp hq; rfl
    · rw [Finmap.lookup_insert_of_ne _ hkk, hr.entries]
      by_cases hki : m.bktId hash k' = m.bktId hash k
      · rw [hki, Function.update_self]
        simp [hkk]
      · rw [Function.update_of_ne hki]
  · have hkeys : (f.insert k v).keys = Insert.insert k f.keys := by
      ext a
      rw [Finmap.mem_keys, Finmap.mem_insert, Finset.mem_insert, Finmap.mem_keys]
    rw [hkeys, Finset.card_insert_of_notMem, hr.length]
    rw [Finmap.mem_keys, ← Finmap.lookup_eq_none]
    exact hk

end Rep

/-! ## Iterating -/

/-- The nodes of `c` buckets from bucket `i` on. -/
def nodesFrom (ns : Nat → Nodes κ ν) : Nat → Nat → Nodes κ ν
  | 0, _ => []
  | c + 1, i => ns i ++ nodesFrom ns c (i + 1)

omit [DecidableEq κ] in
theorem mem_nodesFrom {n : Ptr × κ × ν} {c i : Nat} :
    n ∈ nodesFrom ns c i ↔ ∃ j, i ≤ j ∧ j < i + c ∧ n ∈ ns j := by
  induction c generalizing i with
  | zero => simp [nodesFrom]; omega
  | succ c ih =>
    rw [nodesFrom, List.mem_append, ih]
    constructor
    · rintro (h | ⟨j, hij, hj, h⟩)
      · exact ⟨i, Nat.le_refl _, by omega, h⟩
      · exact ⟨j, by omega, by omega, h⟩
    · rintro ⟨j, hij, hj, h⟩
      rcases Nat.eq_or_lt_of_le hij with rfl | hlt
      · exact .inl h
      · exact .inr ⟨j, hlt, by omega, h⟩

/-- The iterator `it` has the nodes `ms` before it. -/
def Ahead (m : UnorderedMap κ ν) (ns : Nat → Nodes κ ν) (it : Iter) (ms : Nodes κ ν) : Prop :=
  (ms = [] ∧ it.isEnd m = true) ∨
    ∃ i as n cs, it = ⟨i, some n.1⟩ ∧ i < m.buckets_.length_ ∧ ns i = as ++ n :: cs ∧
      ms = n :: cs ++ nodesFrom ns (m.buckets_.length_ - (i + 1)) (i + 1)

namespace Rep

variable {it : Iter} {ms : Nodes κ ν} {n : Ptr × κ × ν}

theorem makeCorrect (hr : Rep hash m ns f) {fuel i : Nat} {as cs : Nodes κ ν}
    (hi : i < m.buckets_.length_) (hns : ns i = as ++ cs) (hf : m.buckets_.length_ - i ≤ fuel) :
    ∃ it, m.makeCorrect fuel ⟨i, (ptrs cs).head?⟩ = some it ∧
      Ahead m ns it (cs ++ nodesFrom ns (m.buckets_.length_ - (i + 1)) (i + 1)) := by
  induction fuel generalizing i as cs with
  | zero => omega
  | succ fuel ih =>
    have hend : ¬ (Iter.isEnd m ⟨i, (ptrs cs).head?⟩ = true) := by simpa [Iter.isEnd] using hi
    rw [UnorderedMap.makeCorrect, if_neg hend]
    cases cs with
    | cons n cs => exact ⟨_, if_pos rfl, .inr ⟨i, as, n, cs, rfl, hi, hns, rfl⟩⟩
    | nil =>
      simp only [ptrs, List.map_nil, List.head?_nil, Option.isSome_none, Bool.false_eq_true,
        if_false]
      by_cases hlast : m.buckets_.length_ ≤ i + 1
      · refine ⟨_, if_pos hlast, .inl ⟨?_, by simpa [Iter.isEnd] using hlast⟩⟩
        rw [Nat.sub_eq_zero_of_le hlast]
        rfl
      · obtain ⟨bkt, hb, hbr⟩ := hr.bucket (i + 1) (by omega)
        obtain ⟨it, hit, ha⟩ := ih (i := i + 1) (by omega) (List.nil_append (ns (i + 1))).symm
          (by omega)
        refine ⟨it, ?_, ?_⟩
        · rw [if_neg hlast, hb, Option.bind_eq_bind, Option.bind_some, hbr.begin_]
          exact hit
        · rw [show m.buckets_.length_ - (i + 1) = m.buckets_.length_ - (i + 1 + 1) + 1 by omega]
          exact ha

theorem begin_ (hr : Rep hash m ns f) :
    ∃ it, m.begin_ = some it ∧ Ahead m ns it (nodesFrom ns m.buckets_.length_ 0) := by
  obtain ⟨bkt, hb, hbr⟩ := hr.bucket 0 hr.pos
  obtain ⟨it, hit, ha⟩ := hr.makeCorrect hr.pos (List.nil_append (ns 0)).symm (Nat.le_refl _)
  refine ⟨it, ?_, ?_⟩
  · have h0 : m.buckets_.length_ ≠ 0 := Nat.pos_iff_ne_zero.mp hr.pos
    rw [UnorderedMap.begin_, if_neg h0, hb, Option.bind_eq_bind, Option.bind_some, hbr.begin_]
    exact hit
  · have := hr.pos
    rw [show m.buckets_.length_ = m.buckets_.length_ - (0 + 1) + 1 by omega]
    exact ha

theorem next (hr : Rep hash m ns f) (ha : Ahead m ns it (n :: ms)) :
    ∃ it', m.next it = some it' ∧ Ahead m ns it' ms := by
  rcases ha with ⟨h, -⟩ | ⟨i, as, n', cs, rfl, hi, hns, hms⟩
  · cases h
  · cases hms
    obtain ⟨bkt, hb, hbr⟩ := hr.bucket i hi
    have hnext := hbr.next
    rw [hns, List.map_append, List.map_cons] at hnext
    obtain ⟨x, -, -, y, hy, hc⟩ := Chain.append_iff.mp hnext
    rw [hc.head_none] at hy
    have hfollow : follow (Slist.nextPtr m.heap) 1 (some n.1) = some (ptrs cs).head? := by
      rw [follow, hy]
      rfl
    have hns' : ns i = (as ++ [n]) ++ cs := by rw [hns]; simp
    obtain ⟨it, hit, ha⟩ := hr.makeCorrect hi hns' (Nat.sub_le m.buckets_.length_ i)
    exact ⟨it, by rw [UnorderedMap.next, hfollow]; exact hit, ha⟩

theorem deref (hr : Rep hash m ns f) (ha : Ahead m ns it (n :: ms)) : m.deref it = some n.2 := by
  rcases ha with ⟨h, -⟩ | ⟨i, as, n', cs, rfl, hi, hns, hms⟩
  · cases h
  · cases hms
    obtain ⟨bkt, hb, hbr⟩ := hr.bucket i hi
    obtain ⟨e, he, hd⟩ := Option.map_eq_some_iff.mp (hbr.data n (by simp [hns]))
    have hend : ¬ (Iter.isEnd m ⟨i, some n.1⟩ = true) := by simpa [Iter.isEnd] using hi
    rw [UnorderedMap.deref, if_neg hend]
    simp [he, hd]

theorem visit (hr : Rep hash m ns f) {fuel : Nat} (ha : Ahead m ns it ms) (hf : ms.length ≤ fuel) :
    m.visit fuel it = some (ms.map Prod.snd) := by
  induction ms generalizing it fuel with
  | nil =>
    rcases ha with ⟨-, hend⟩ | ⟨i, as, n, cs, -, -, -, hms⟩
    · cases fuel <;> simp [UnorderedMap.visit, hend]
    · cases hms
  | cons n ms ih =>
    cases fuel with
    | zero => simp at hf
    | succ fuel =>
      have hend : ¬ (it.isEnd m = true) := by
        rcases ha with ⟨h, -⟩ | ⟨i, as, n', cs, rfl, hi, -, -⟩
        · cases h
        · simpa [Iter.isEnd] using hi
      obtain ⟨it', hit', ha'⟩ := hr.next ha
      rw [UnorderedMap.visit, if_neg hend, hr.deref ha, hit']
      simp [ih ha' (by simpa using hf)]

theorem nodup_nodesFrom (hr : Rep hash m ns f) {c i : Nat} (hc : i + c ≤ m.buckets_.length_) :
    ((nodesFrom ns c i).map (·.2.1)).Nodup := by
  induction c generalizing i with
  | zero => exact List.nodup_nil
  | succ c ih =>
    rw [nodesFrom, List.map_append, List.nodup_append]
    refine ⟨hr.nodup i (by omega), ih (by omega), fun a ha b hb hab => ?_⟩
    obtain ⟨n, hn, rfl⟩ := List.mem_map.mp ha
    obtain ⟨n', hn', rfl⟩ := List.mem_map.mp hb
    obtain ⟨j, hij, hj, hn'⟩ := mem_nodesFrom.mp hn'
    -- one key, one bucket
    have hi := hr.placed i (by omega) n hn
    have hj := hr.placed j (by omega) n' hn'
    rw [← hab, hi] at hj
    omega

end Rep

/-! ## Operations -/

theorem resize_init {n : Nat} (hn : 0 < n) (v : BucketVec) (hv : v.length_ = 0)
    (hm : v.max_length_ ≤ n) :
    (v.resize n).length_ = n ∧ (v.resize n).max_length_ = n ∧
      ∀ i < n, (v.resize n).data i = some {} := by
  have h0 : n ≠ 0 := Nat.pos_iff_ne_zero.mp hn
  have hg : ¬ n < v.max_length_ := Nat.not_lt.mpr hm
  simp only [BucketVec.resize, if_neg h0, BucketVec.growVector, if_neg hg, hv]
  refine ⟨trivial, trivial, fun i hi => ?_⟩
  rw [if_neg (Nat.not_lt_zero i), if_pos hi]

/-- Buckets as `resize` makes them, with nothing in them. -/
theorem Rep.empty {n : Nat} (hn : 0 < n) {h : Slist.Heap (κ × ν)} {v : BucketVec}
    (hv : v.length_ = 0) (hm : v.max_length_ ≤ n) :
    Rep hash { heap := h, buckets_ := v.resize n, length_ := 0 } (fun _ => []) ∅ := by
  obtain ⟨hlen, hmax, hdata⟩ := resize_init hn v hv hm
  refine ⟨by rw [hlen]; exact hn, by rw [hlen, hmax], fun i hi => ?_, fun _ _ _ _ _ _ => nofun,
    fun _ _ => nofun, fun _ _ => List.nodup_nil, fun k v => ?_, rfl⟩
  · rw [hlen] at hi
    exact ⟨{}, hdata i hi, .init h⟩
  · simp

theorem Rep.init {n : Nat} (hn : 0 < n) : Rep hash (shmInit κ ν n) (fun _ => []) ∅ :=
  .empty hn rfl (Nat.zero_le n)

theorem insert_erase (f : Model κ ν) (key : κ) (v : ν) :
    (f.erase key).insert key v = f.insert key v := by
  refine Finmap.ext_lookup fun k => ?_
  by_cases hk : k = key
  · subst hk; rw [Finmap.lookup_insert, Finmap.lookup_insert]
  · rw [Finmap.lookup_insert_of_ne _ hk, Finmap.lookup_insert_of_ne _ hk,
      Finmap.lookup_erase_ne hk]

theorem erase_absent {key : κ} (hl : f.lookup key = none) : f.erase key = f :=
  Finmap.ext_lookup fun k => by
    by_cases hk : k = key
    · subst hk; rw [Finmap.lookup_erase, hl]
    · rw [Finmap.lookup_erase_ne hk]

namespace Rep

theorem emplaceTempl (hr : Rep hash m ns f) (modify_existing : Bool) {p : Ptr} {key : κ} (v : ν)
    (hp : m.heap p = none ∨
      modify_existing = true ∧ (m.find hash key).bind (·.collision_) = some p) :
    ∃ m', m.emplaceTempl hash modify_existing p key v =
      some (modify_existing || (f.lookup key).isNone, m') ∧
      (if modify_existing || (f.lookup key).isNone then
        ∃ ns', Rep hash m' ns' (f.insert key v) ∧ m'.buckets_.length_ = m.buckets_.length_
      else m' = m) := by
  obtain ⟨bkt, hb, hbr, hcol⟩ := hr.collision key
  rcases hcol with ⟨hl, hfind⟩ | ⟨q, w, as, cs, hl, hfind, hns⟩
  · -- the key is new
    have hp : m.heap p = none := by
      rcases hp with hp | ⟨-, hi⟩
      · exact hp
      · simp [UnorderedMap.find, hb, hfind, end_] at hi
    obtain ⟨h, b, he, hr', -⟩ := hr.append hb hl hp v
    refine
      ⟨{ heap := h, buckets_ := m.buckets_.set (m.bktId hash key) b, length_ := m.length_ + 1 },
        ?_, ?_⟩
    · simp only [UnorderedMap.emplaceTempl, hb, hfind, Option.bind_eq_bind, Option.bind_some,
        Option.isSome_none, Bool.false_and, Bool.false_eq_true, if_false, he, hl,
        Option.isNone_none, Bool.or_true]
    · rw [hl]
      simp only [Option.isNone_none, Bool.or_true, if_true]
      exact ⟨_, hr', rfl⟩
  · cases modify_existing with
    | false =>
      refine ⟨m, ?_, ?_⟩
      · simp [UnorderedMap.emplaceTempl, hb, hfind, hl]
      · simp [hl]
    | true =>
      obtain ⟨m₁, he₁, hr₁, hq, hkeep, hlen₁⟩ := hr.eraseNode (hr.bktId_lt key) hns
      have hp : m₁.heap p = none := by
        rcases hp with hp | ⟨-, hi⟩
        · rw [hkeep p (hbr.not_mem hp), hp]
        · simp only [UnorderedMap.find, hb, hfind, Option.bind_eq_bind, Option.bind_some,
            Option.some.injEq] at hi
          exact hi ▸ hq
      have hid : m₁.bktId hash key = m.bktId hash key := by rw [bktId, bktId, hlen₁]
      obtain ⟨b₁, hb₁, -⟩ := hr₁.bucket (m₁.bktId hash key) (hr₁.bktId_lt key)
      obtain ⟨h, b, he, hr', -⟩ := hr₁.append hb₁ (Finmap.lookup_erase key f) hp v
      rw [insert_erase] at hr'
      refine ⟨{ heap := h, buckets_ := m₁.buckets_.set (m₁.bktId hash key) b,
                length_ := m₁.length_ + 1 }, ?_, ?_⟩
      · rw [hid] at hb₁
        simp only [UnorderedMap.emplaceTempl, hb, hfind, Option.bind_eq_bind, Option.bind_some,
          Option.isSome_some, Bool.not_true, Bool.and_false, Bool.false_eq_true, if_false, if_true,
          he₁, hb₁, he, hid, Bool.true_or]
      · simp only [Bool.true_or, if_true]
        exact ⟨_, hr', hlen₁⟩

theorem erase (hr : Rep hash m ns f) (key : κ) :
    ∃ m' ns', m.erase hash key = some m' ∧ Rep hash m' ns' (f.erase key) ∧
      m'.buckets_.length_ = m.buckets_.length_ := by
  obtain ⟨bkt, hb, hbr, hcol⟩ := hr.collision key
  rcases hcol with ⟨hl, hfind⟩ | ⟨q, w, as, cs, hl, hfind, hns⟩
  · refine ⟨m, ns, by simp [UnorderedMap.erase, hb, hfind], ?_, rfl⟩
    rw [erase_absent hl]
    exact hr
  · obtain ⟨m', he, hr', -, -, hlen⟩ := hr.eraseNode (hr.bktId_lt key) hns
    refine ⟨m', _, ?_, hr', hlen⟩
    simp only [UnorderedMap.erase, hb, hfind, Option.bind_eq_bind, Option.bind_some, he]

/-- A valid iterator is at a node of its bucket. -/
theorem node (hr : Rep hash m ns f) {it : Iter} (hv : it.Valid m) :
    ∃ i as p k v cs, it = ⟨i, some p⟩ ∧ i < m.buckets_.length_ ∧ ns i = as ++ (p, k, v) :: cs ∧
      m.deref it = some (k, v) := by
  obtain ⟨i, c⟩ := it
  obtain ⟨hi, hc, hf⟩ := hv
  obtain ⟨p, rfl⟩ := Option.isSome_iff_exists.mp hc
  obtain ⟨bkt, hb, hbr⟩ := hr.bucket i hi
  simp only [hb] at hf
  obtain ⟨n, -, hf⟩ := hf
  rw [hbr.next.follow, Option.some.injEq] at hf
  have hmem := List.mem_of_getElem? hf
  obtain ⟨⟨q, k, v⟩, hn, hq⟩ := List.mem_map.mp hmem
  obtain rfl : q = p := hq
  obtain ⟨as, cs, hns⟩ := List.append_of_mem hn
  have ha : Ahead m ns ⟨i, some q⟩ ((q, k, v) :: cs ++ nodesFrom ns _ (i + 1)) :=
    .inr ⟨i, as, (q, k, v), cs, rfl, hi, hns, rfl⟩
  exact ⟨i, as, q, k, v, cs, rfl, hi, hns, hr.deref ha⟩

theorem eraseIter (hr : Rep hash m ns f) {it : Iter} (hv : it.isEnd m = true ∨ it.Valid m) :
    ∃ m' ns', m.eraseIter it = some m' ∧
      Rep hash m' ns' ((Op.eraseIter it : Op κ ν).spec m f) ∧
      m'.buckets_.length_ = m.buckets_.length_ := by
  by_cases hend : it.isEnd m = true
  · refine ⟨m, ns, if_pos hend, ?_, rfl⟩
    rw [Op.spec, UnorderedMap.deref, if_pos hend]
    exact hr
  · obtain ⟨i, as, p, k, v, cs, rfl, hi, hns, hd⟩ := hr.node (hv.resolve_left hend)
    obtain ⟨m', he, hr', -, -, hlen⟩ := hr.eraseNode hi hns
    refine ⟨m', Function.update ns i (as ++ cs), (if_neg hend).trans he, ?_, hlen⟩
    rw [Op.spec, hd]
    exact hr'

/-- Destroying the first `n` buckets frees their nodes and leaves the others. -/
theorem destroy (hr : Rep hash m ns f) {n : Nat} (hn : n ≤ m.buckets_.length_) :
    ∃ h', m.buckets_.destroy m.heap n = some h' ∧
      ∀ q, (∀ i < n, q ∉ ptrs (ns i)) → h' q = m.heap q := by
  induction n with
  | zero => exact ⟨m.heap, rfl, fun _ _ => rfl⟩
  | succ n ih =>
    obtain ⟨h₁, hd, hkeep⟩ := ih (Nat.le_of_succ_le hn)
    obtain ⟨bkt, hb, hbr⟩ := hr.bucket n hn
    have hn' : ∀ q ∈ ptrs (ns n), h₁ q = m.heap q := fun q hq =>
      hkeep q fun i hi => hr.disjoint n hn i (by omega) (Nat.ne_of_gt hi) q hq
    obtain ⟨h₂, b, hc, -, hother⟩ := (hbr.congr hn').clear
    refine ⟨h₂, ?_, fun q hq => ?_⟩
    · simp only [BucketVec.destroy, hd, hb, Option.bind_eq_bind, Option.bind_some, hc,
        Option.map_some]
    · rw [hother q (hq n (Nat.lt_succ_self n))]
      exact hkeep q fun i hi => hq i (Nat.lt_succ_of_lt hi)

theorem clear (hr : Rep hash m ns f) :
    ∃ m' ns', m.clear = some m' ∧ Rep hash m' ns' ∅ ∧
      m'.buckets_.length_ = m.buckets_.length_ := by
  obtain ⟨h', hd, -⟩ := hr.destroy (Nat.le_refl _)
  let v : BucketVec :=
    { m.buckets_ with
      data := fun i => if i < m.buckets_.length_ then none else m.buckets_.data i, length_ := 0 }
  have hv : v.max_length_ ≤ m.buckets_.length_ := Nat.le_of_eq hr.max_length
  refine ⟨{ heap := h', buckets_ := v.resize m.buckets_.length_, length_ := 0 }, _, ?_,
    .empty hr.pos rfl hv, (resize_init hr.pos v rfl hv).1⟩
  simp only [UnorderedMap.clear, BucketVec.clear, hd, Option.map_some, Option.bind_eq_bind,
    Option.bind_some, v]

/-- **Step lemma.** A legal operation is not stuck and does what it does to the
finite map. -/
theorem step (hr : Rep hash m ns f) {op : Op κ ν} (hl : Legal hash m op) :
    ∃ m' ns', UnorderedMap.step hash m op = some m' ∧ Rep hash m' ns' (op.spec m f) ∧
      m'.buckets_.length_ = m.buckets_.length_ := by
  cases op with
  | emplace p key v =>
    obtain ⟨m', he, hm'⟩ := hr.emplaceTempl true v (hl.imp_right fun h => ⟨rfl, h⟩)
    obtain ⟨ns', hr', hlen⟩ := hm'
    exact ⟨m', ns', by rw [UnorderedMap.step, emplace, he]; rfl, hr', hlen⟩
  | tryEmplace p key v =>
    obtain ⟨m', he, hm'⟩ := hr.emplaceTempl false v (.inl hl)
    have hstep : UnorderedMap.step hash m (.tryEmplace p key v) = some m' := by
      rw [UnorderedMap.step, tryEmplace, he]
      rfl
    rw [Op.spec]
    cases hk : f.lookup key with
    | none =>
      rw [hk] at hm'
      obtain ⟨ns', hr', hlen⟩ := hm'
      rw [if_neg (Finmap.lookup_eq_none.mp hk)]
      exact ⟨m', ns', hstep, hr', hlen⟩
    | some w =>
      rw [hk] at hm'
      obtain rfl : m' = m := hm'
      rw [if_pos (Finmap.mem_of_lookup_eq_some hk)]
      exact ⟨m', ns, hstep, hr, rfl⟩
  | erase key =>
    obtain ⟨m', ns', he, hr', hlen⟩ := hr.erase key
    exact ⟨m', ns', he, hr', hlen⟩
  | eraseIter it => exact hr.eraseIter hl
  | clear => exact hr.clear

end Rep

/-! ## Refinement -/

/-- The map, made with `n` buckets, behaves as the finite map `f`. -/
structure Refines (hash : κ → Nat) (n : Nat) (m : UnorderedMap κ ν) (f : Model κ ν) : Prop where
  num_buckets : m.buckets_.length_ = n
  /-- A key has one node at most, in the bucket of its hash. -/
  placed : ∃ ns : Nat → Nodes κ ν, ∀ i < n,
    (∃ bkt, m.buckets_.data i = some bkt ∧ Represents m.heap bkt (ns i)) ∧
      ((ns i).map (·.2.1)).Nodup ∧ ∀ e ∈ ns i, hash e.2.1 % n = i
  find : ∀ key, ∃ it, m.find hash key = some it ∧ (it.isEnd m = true ↔ key ∉ f) ∧
    m.deref it = (f.lookup key).map fun v => (key, v)
  index : ∀ key, m.index hash key = some (match f.lookup key with
    | some v => .ok v
    | none => .error .unorderedMapCantFind)
  size : m.size = f.keys.card
  /-- `begin()` to `end()` visits every entry once. -/
  iterate : ∃ it es, m.begin_ = some it ∧ (∀ fuel ≥ es.length, m.visit fuel it = some es) ∧
    (es.map Prod.fst).Nodup ∧ ∀ k v, (k, v) ∈ es ↔ f.lookup k = some v
  emplace : ∀ p key v, Legal hash m (.emplace p key v) →
    ∃ m', m.emplace hash p key v = some (true, m')
  try_emplace : ∀ p key v, Legal hash m (.tryEmplace p key v) →
    ∃ m', m.tryEmplace hash p key v = some ((f.lookup key).isNone, m') ∧ (key ∈ f → m' = m)
  enabled : ∀ op, Legal hash m op → (UnorderedMap.step hash m op).isSome

namespace Rep

theorem find (hr : Rep hash m ns f) (key : κ) :
    ∃ it, m.find hash key = some it ∧ (it.isEnd m = true ↔ f.lookup key = none) ∧
      m.deref it = (f.lookup key).map fun v => (key, v) := by
  obtain ⟨bkt, hb, hbr, hcol⟩ := hr.collision key
  rcases hcol with ⟨hl, hfind⟩ | ⟨p, v, as, cs, hl, hfind, hns⟩
  · have hend : m.end_.isEnd m = true := by simp [Iter.isEnd, end_]
    refine ⟨m.end_, by simp [UnorderedMap.find, hb, hfind], by simp [hend, hl], ?_⟩
    rw [UnorderedMap.deref, if_pos hend, hl]
    rfl
  · have hi := hr.bktId_lt key
    refine ⟨⟨m.bktId hash key, some p⟩, by simp [UnorderedMap.find, hb, hfind], ?_, ?_⟩
    · simpa [Iter.isEnd, hl] using hi
    · have ha : Ahead m ns ⟨m.bktId hash key, some p⟩
          ((p, key, v) :: cs ++ nodesFrom ns _ (m.bktId hash key + 1)) :=
        .inr ⟨_, as, (p, key, v), cs, rfl, hi, hns, rfl⟩
      rw [hl]
      exact hr.deref ha

theorem index (hr : Rep hash m ns f) (key : κ) :
    m.index hash key = some (match f.lookup key with
      | some v => .ok v
      | none => .error .unorderedMapCantFind) := by
  obtain ⟨it, hfind, hend, hd⟩ := hr.find key
  simp only [UnorderedMap.index, hfind, Option.bind_eq_bind, Option.bind_some, hd]
  cases hl : f.lookup key with
  | none => rw [if_pos (hend.mpr hl)]
  | some v =>
    have hne : ¬ (it.isEnd m = true) := fun h => by rw [hend.mp h] at hl; cases hl
    rw [if_neg hne]
    rfl

theorem iterate (hr : Rep hash m ns f) :
    ∃ it es, m.begin_ = some it ∧ (∀ fuel ≥ es.length, m.visit fuel it = some es) ∧
      (es.map Prod.fst).Nodup ∧ ∀ k v, (k, v) ∈ es ↔ f.lookup k = some v := by
  obtain ⟨it, hbegin, ha⟩ := hr.begin_
  refine ⟨it, (nodesFrom ns m.buckets_.length_ 0).map Prod.snd, hbegin, fun fuel hf => ?_, ?_,
    fun k v => ?_⟩
  · exact hr.visit ha (by simpa using hf)
  · rw [List.map_map]
    exact hr.nodup_nodesFrom (Nat.le_of_eq (Nat.zero_add _))
  · rw [hr.entries, List.mem_map]
    constructor
    · rintro ⟨n, hn, hkv⟩
      obtain ⟨p, k, v⟩ := n
      cases hkv
      obtain ⟨j, -, hj, hn⟩ := mem_nodesFrom.mp hn
      obtain ⟨hb, -⟩ := hr.lookup_of_mem (by omega) hn
      exact ⟨p, hb ▸ hn⟩
    · rintro ⟨p, hp⟩
      have := hr.bktId_lt k
      exact ⟨(p, k, v), mem_nodesFrom.mpr ⟨_, Nat.zero_le _, by omega, hp⟩, rfl⟩

theorem refines (hr : Rep hash m ns f) : Refines hash m.buckets_.length_ m f where
  num_buckets := rfl
  placed := ⟨ns, fun i hi => ⟨hr.bucket i hi, hr.nodup i hi, hr.placed i hi⟩⟩
  find := fun key => by
    rw [← Finmap.lookup_eq_none]
    exact hr.find key
  index := hr.index
  size := hr.length
  iterate := hr.iterate
  emplace := fun p key v hl => by
    obtain ⟨m', he, -⟩ := hr.emplaceTempl true v (hl.imp_right fun h => ⟨rfl, h⟩)
    exact ⟨m', he⟩
  try_emplace := fun p key v hl => by
    obtain ⟨m', he, hm'⟩ := hr.emplaceTempl false v (.inl hl)
    refine ⟨m', he, fun hk => ?_⟩
    obtain ⟨w, hw⟩ := Finmap.mem_iff.mp hk
    rw [hw] at hm'
    exact hm'
  enabled := fun op hl => by
    obtain ⟨m', ns', he, -⟩ := hr.step hl
    rw [he]
    rfl

end Rep

/-- **Refinement.** After any legal operations, the map behaves as the finite map
that the same operations make. -/
theorem refines_finite_map {n : Nat} (hn : 0 < n) {ops : List (Op κ ν)}
    {s : UnorderedMap κ ν × Model κ ν}
    (hrun : Run (tracked hash) (fun s => Legal hash s.1) (shmInit κ ν n, ∅) ops s) :
    Refines hash n s.1 s.2 := by
  have hinv : ∃ ns, Rep hash s.1 ns s.2 ∧ s.1.buckets_.length_ = n := by
    refine hrun.invariant (I := fun s => ∃ ns, Rep hash s.1 ns s.2 ∧ s.1.buckets_.length_ = n)
      ⟨_, .init hn, (resize_init hn {} rfl (Nat.zero_le n)).1⟩ ?_
    rintro ⟨m, f⟩ op ⟨m', f'⟩ ⟨ns, hr, hlen⟩ hl hs
    obtain ⟨m₁, ns', he, hr', hlen'⟩ := hr.step hl
    rw [tracked, he, Option.map_some, Option.some.injEq] at hs
    cases hs
    exact ⟨ns', hr', hlen'.trans hlen⟩
  obtain ⟨ns, hr, rfl⟩ := hinv
  exact hr.refines

/-- Two buckets and colliding keys: an overwrite, an insertion that is refused,
and both ways to erase. -/
theorem refines_finite_map_collisions :
    ∃ s, Run (tracked fun k : Nat => k) (fun s => Legal (fun k => k) s.1) (shmInit Nat Nat 2, ∅)
      [.emplace 100 0 5, .emplace 101 2 6, .emplace 102 1 7, .emplace 100 0 8, .tryEmplace 103 2 9,
        .eraseIter ⟨0, some 101⟩, .erase 1] s ∧
      Refines (fun k => k) 2 s.1 s.2 ∧ s.1.begin_.bind (s.1.visit 1) = some [(0, 8)] := by
  have hex : ((execOk (tracked fun k : Nat => k) (fun s => Legal (fun k => k) s.1)
      (shmInit Nat Nat 2, ∅)
      [.emplace 100 0 5, .emplace 101 2 6, .emplace 102 1 7, .emplace 100 0 8, .tryEmplace 103 2 9,
        .eraseIter ⟨0, some 101⟩, .erase 1]).map fun s => s.1.begin_.bind (s.1.visit 1)) =
      some (some [(0, 8)]) := by
    decide +kernel
  obtain ⟨s, hs, hv⟩ := Option.map_eq_some_iff.mp hex
  have hrun := run_of_execOk hs
  exact ⟨s, hrun, refines_finite_map (by decide) hrun, hv⟩

end HermesShm.Ipc.UnorderedMap
