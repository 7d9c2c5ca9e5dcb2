import HermesShm.Ipc.UnorderedMapCopy

/-! # What a copy of an unordered map is

A copy has the entries of its source. Its length goes on from where it was, as
no copy sets it. -/
namespace HermesShm.Ipc
open HermesShm.Base
open Slist (Represents)
open UnorderedMap (Model Nodes Rep Ahead Iter ptrs nodesFrom)

variable {κ ν : Type}

namespace UnorderedMap

variable {h : Slist.Heap (κ × ν)} {b : BucketVec} {n k : Nat}

/-! ## Iteration does not look at the length -/

theorem makeCorrect_length (fuel : Nat) (it : Iter) :
    makeCorrect (⟨h, b, n⟩ : UnorderedMap κ ν) fuel it = makeCorrect ⟨h, b, k⟩ fuel it := by
  induction fuel generalizing it with
  | zero => rfl
  | succ fuel ih =>
    simp only [makeCorrect, ih]
    rfl

theorem begin_length : begin_ (⟨h, b, n⟩ : UnorderedMap κ ν) = begin_ ⟨h, b, k⟩ := by
  simp only [begin_, makeCorrect_length (n := n) (k := k)]
  rfl

theorem next_length (it : Iter) :
    next (⟨h, b, n⟩ : UnorderedMap κ ν) it = next ⟨h, b, k⟩ it := by
  simp only [next, makeCorrect_length (n := n) (k := k)]

theorem visit_length (fuel : Nat) (it : Iter) :
    visit (⟨h, b, n⟩ : UnorderedMap κ ν) fuel it = visit ⟨h, b, k⟩ fuel it := by
  induction fuel generalizing it with
  | zero => rfl
  | succ fuel ih =>
    simp only [visit, ih, next_length (n := n) (k := k)]
    rfl

end UnorderedMap

namespace MapHeader

variable [DecidableEq κ] {hash : κ → Nat} {h h' h'' : Slist.Heap (κ × ν)} {m m' m'' : MapHeader}
  {f f' f'' : Model κ ν} {ns ns' ns'' : Nat → Nodes κ ν} {p q : Ptr}

/-- The map behind a header is the finite map `f`, whatever its length says. -/
def Holds (hash : κ → Nat) (h : Slist.Heap (κ × ν)) (m : MapHeader) (ns : Nat → Nodes κ ν)
    (f : Model κ ν) : Prop :=
  Rep hash ⟨h, m.buckets_, f.keys.card⟩ ns f

/-- How far the length is from the number of entries. -/
def drift (m : MapHeader) (f : Model κ ν) : UInt64 := m.length_ - UInt64.ofNat f.keys.card

def Owns (m : MapHeader) (ns : Nat → Nodes κ ν) (q : Ptr) : Prop :=
  ∃ i < m.buckets_.length_, q ∈ ptrs (ns i)

/-- What is not the map's stays as it is, and does not become the map's. -/
def Keeps (h : Slist.Heap (κ × ν)) (m : MapHeader) (ns : Nat → Nodes κ ν)
    (h' : Slist.Heap (κ × ν)) (m' : MapHeader) (ns' : Nat → Nodes κ ν) : Prop :=
  ∀ q, h q ≠ none → ¬ Owns m ns q → h' q = h q ∧ ¬ Owns m' ns' q

omit [DecidableEq κ] in
theorem Keeps.refl : Keeps h m ns h m ns := fun _ _ hq => ⟨rfl, hq⟩

omit [DecidableEq κ] in
theorem Keeps.trans (h₁ : Keeps h m ns h' m' ns') (h₂ : Keeps h' m' ns' h'' m'' ns'') :
    Keeps h m ns h'' m'' ns'' := by
  intro q hq hn
  obtain ⟨he, hn'⟩ := h₁ q hq hn
  obtain ⟨he', hn''⟩ := h₂ q (he ▸ hq) hn'
  exact ⟨he'.trans he, hn''⟩

theorem Holds.live (hr : Holds hash h m ns f) (hq : Owns m ns q) : h q ≠ none := by
  obtain ⟨i, hi, hq⟩ := hq
  obtain ⟨bkt, -, hb⟩ := hr.bucket i hi
  exact fun hn => hb.not_mem hn hq

theorem Holds.congr (hr : Holds hash h m ns f) (hh : ∀ q, Owns m ns q → h' q = h q) :
    Holds hash h' m ns f where
  pos := hr.pos
  max_length := hr.max_length
  bucket := fun i hi => by
    obtain ⟨bkt, hd, hb⟩ := hr.bucket i hi
    exact ⟨bkt, hd, hb.congr fun q hq => hh q ⟨i, hi, hq⟩⟩
  disjoint := hr.disjoint
  placed := hr.placed
  nodup := hr.nodup
  entries := hr.entries
  length := rfl

theorem Holds.of_rep {u : UnorderedMap κ ν} (hr : Rep hash u ns f) (length_ : UInt64) :
    Holds hash u.heap ⟨u.buckets_, length_⟩ ns f := by
  rw [Holds, ← hr.length]
  exact hr

/-- Two maps that own nothing together: one stays when the other changes. -/
theorem Holds.apart {o : MapHeader} {no : Nat → Nodes κ ν} {g : Model κ ν}
    (hr : Holds hash h o no g) (hk : Keeps h m ns h' m' ns')
    (ha : ∀ q, Owns o no q → ¬ Owns m ns q) :
    Holds hash h' o no g ∧ ∀ q, Owns o no q → ¬ Owns m' ns' q :=
  ⟨hr.congr fun q hq => (hk q (hr.live hq) (ha q hq)).1,
    fun q hq => (hk q (hr.live hq) (ha q hq)).2⟩

/-- The map `f` becomes `f'` by insertions and removals that are counted. -/
structure Becomes (hash : κ → Nat) (h : Slist.Heap (κ × ν)) (m : MapHeader)
    (ns : Nat → Nodes κ ν) (f : Model κ ν) (h' : Slist.Heap (κ × ν)) (m' : MapHeader)
    (ns' : Nat → Nodes κ ν) (f' : Model κ ν) : Prop where
  holds : Holds hash h' m' ns' f'
  keeps : Keeps h m ns h' m' ns'
  num_buckets : m'.buckets_.length_ = m.buckets_.length_
  drift : m'.drift f' = m.drift f

theorem Becomes.refl (hr : Holds hash h m ns f) : Becomes hash h m ns f h m ns f :=
  ⟨hr, .refl, rfl, rfl⟩

theorem Becomes.trans (h₁ : Becomes hash h m ns f h' m' ns' f')
    (h₂ : Becomes hash h' m' ns' f' h'' m'' ns'' f'') :
    Becomes hash h m ns f h'' m'' ns'' f'' :=
  ⟨h₂.holds, h₁.keeps.trans h₂.keeps, h₂.num_buckets.trans h₁.num_buckets,
    h₂.drift.trans h₁.drift⟩

/-! ## One entry more or less -/

omit [DecidableEq κ] in
theorem drift_sub (hf : f.keys.card = f'.keys.card + 1) (b : BucketVec) :
    (⟨b, m.length_ - 1⟩ : MapHeader).drift f' = m.drift f := by
  simp only [MapHeader.drift, hf, UInt64.ofNat_add]
  grind

omit [DecidableEq κ] in
theorem drift_add (hf : f'.keys.card = f.keys.card + 1) (b : BucketVec) :
    (⟨b, m.length_ + 1⟩ : MapHeader).drift f' = m.drift f := by
  simp only [MapHeader.drift, hf, UInt64.ofNat_add]
  grind

omit [DecidableEq κ] in
theorem eraseCollision_view (h : Slist.Heap (κ × ν)) (m : MapHeader) (n i : Nat)
    (collision : Option Ptr) :
    m.eraseCollision h i collision =
      ((⟨h, m.buckets_, n⟩ : UnorderedMap κ ν).eraseCollision i collision).map fun u =>
        (u.heap, ⟨u.buckets_, m.length_ - 1⟩) := by
  simp only [eraseCollision, UnorderedMap.eraseCollision, Option.bind_eq_bind]
  cases m.buckets_.data i with
  | none => rfl
  | some bkt =>
    simp only [Option.bind_some]
    cases Slist.erase h bkt collision <;> rfl

theorem Holds.eraseNode (hr : Holds hash h m ns f) {i : Nat} (hi : i < m.buckets_.length_) {k : κ}
    {v : ν} {as cs : Nodes κ ν} (hns : ns i = as ++ (p, k, v) :: cs) :
    ∃ h' m', m.eraseCollision h i (some p) = some (h', m') ∧
      Becomes hash h m ns f h' m' (Function.update ns i (as ++ cs)) (f.erase k) ∧ h' p = none := by
  obtain ⟨u, he, hr', hp, hother, hlen⟩ := Rep.eraseNode hr hi hns
  have hcard : f.keys.card = (f.erase k).keys.card + 1 := by
    have hmem : k ∈ f.keys := by
      have := (Rep.lookup_of_mem hr hi (p := p) (k := k) (v := v) (by simp [hns])).2
      exact Finmap.mem_keys.mpr (Finmap.mem_of_lookup_eq_some this)
    rw [Finmap.keys_erase, Finset.card_erase_add_one hmem]
  refine ⟨u.heap, ⟨u.buckets_, m.length_ - 1⟩, ?_, ⟨.of_rep hr' _, ?_, hlen, drift_sub hcard _⟩, hp⟩
  · rw [eraseCollision_view h m f.keys.card, he]
    rfl
  · intro q hq hn
    refine ⟨hother q fun hm => hn ⟨i, hi, hm⟩, ?_⟩
    rintro ⟨j, hj, hm⟩
    have hj' : j < m.buckets_.length_ := hlen ▸ hj
    by_cases hji : j = i
    · subst hji
      rw [Function.update_self] at hm
      refine hn ⟨j, hj', ?_⟩
      rw [hns]
      exact ((List.Sublist.append_left (List.sublist_cons_self _ _) _).map _).subset hm
    · rw [Function.update_of_ne hji] at hm
      exact hn ⟨j, hj', hm⟩

theorem Holds.append (hr : Holds hash h m ns f) {bkt : Slist} {k : κ}
    (hb : m.buckets_.data (m.bktId hash k) = some bkt) (hk : f.lookup k = none) (hp : h p = none)
    (v : ν) :
    ∃ h' b ns', Slist.emplaceBack h bkt p (k, v) = some (h', b) ∧
      Becomes hash h m ns f h' ⟨m.buckets_.set (m.bktId hash k) b, m.length_ + 1⟩ ns'
        (f.insert k v) := by
  obtain ⟨h', b, he, hr', hother⟩ := Rep.append hr hb hk hp v
  have hcard : (f.insert k v).keys.card = f.keys.card + 1 := hr'.length.symm
  refine ⟨h', b, Function.update ns (m.bktId hash k) (ns (m.bktId hash k) ++ [(p, k, v)]), he,
    .of_rep hr' _, ?_, rfl, drift_add hcard _⟩
  intro q hq hn
  have hqp : q ≠ p := fun he => hq (he ▸ hp)
  have hi := Rep.bktId_lt hr k
  refine ⟨hother q hqp fun hm => hn ⟨_, hi, hm⟩, ?_⟩
  rintro ⟨j, hj, hm⟩
  by_cases hji : j = m.bktId hash k
  · subst hji
    rw [Function.update_self] at hm
    simp only [ptrs, List.map_append, List.mem_append, List.map_cons, List.map_nil,
      List.mem_singleton] at hm
    exact hm.elim (fun hm => hn ⟨_, hi, hm⟩) hqp
  · rw [Function.update_of_ne hji] at hm
    exact hn ⟨j, hj, hm⟩

/-! ## Operations -/

section
variable {alloc : Slist.Heap (κ × ν) → Option Ptr}

@[simp] theorem orStuck_some {β : Type} (b : β) : orStuck (some b) = .ok b := rfl

@[simp] theorem ok_bind {β γ : Type} (b : β) (g : β → Except Stop γ) : (.ok b >>= g) = g b := rfl

/-- The outcome of an operation that allocates: no memory, or `r` with `P`. -/
def Yields {β : Type} (r : Except Stop β) (P : β → Prop) : Prop :=
  r = .error .outOfMemory ∨ ∃ b, r = .ok b ∧ P b

theorem Yields.bind {β γ : Type} {r : Except Stop β} {g : β → Except Stop γ} {P : β → Prop}
    {Q : γ → Prop} (hr : Yields r P) (hg : ∀ b, P b → Yields (g b) Q) : Yields (r >>= g) Q := by
  rcases hr with rfl | ⟨b, rfl, hb⟩
  · exact .inl rfl
  · exact hg b hb

theorem Yields.map {β γ : Type} {r : Except Stop β} {g : β → γ} {P : β → Prop} {Q : γ → Prop}
    (hr : Yields r P) (hg : ∀ b, P b → Q (g b)) : Yields (r.map g) Q := by
  rcases hr with rfl | ⟨b, rfl, hb⟩
  · exact .inl rfl
  · exact .inr ⟨g b, rfl, hg b hb⟩

theorem Yields.ok {β : Type} {b : β} {P : β → Prop} (hb : P b) : Yields (.ok b) P :=
  .inr ⟨b, rfl, hb⟩

/-- The allocator returns no entry that is in use. -/
def Allocates {α : Type} (alloc : Slist.Heap α → Option Ptr) : Prop :=
  ∀ h p, alloc h = some p → h p = none

theorem newEntry_yields {α : Type} {alloc : Slist.Heap α → Option Ptr} (ha : Allocates alloc)
    (h : Slist.Heap α) : Yields (newEntry alloc h) fun p => h p = none := by
  unfold newEntry
  cases hp : alloc h with
  | none => exact .inl rfl
  | some p => exact .ok (ha h p hp)

theorem Holds.emplaceTempl (ha : Allocates alloc) (hr : Holds hash h m ns f)
    (modify_existing : Bool) (key : κ) (v : ν) :
    Yields (m.emplaceTempl hash alloc modify_existing h key v) fun r =>
      ∃ ns', Becomes hash h m ns f r.2.1 r.2.2 ns'
        (if modify_existing || (f.lookup key).isNone then f.insert key v else f) := by
  obtain ⟨bkt, hb, -, hcol⟩ := Rep.collision hr key
  change m.buckets_.data (m.bktId hash key) = some bkt at hb
  rcases hcol with ⟨hl, hfind⟩ | ⟨q, w, as, cs, hl, hfind, hns⟩
  · -- the key is new
    simp only [MapHeader.emplaceTempl, hb, orStuck_some, ok_bind, hfind, Option.isSome_none,
      Bool.false_and, Bool.false_eq_true, if_false, hl, Option.isNone_none, Bool.or_true, if_true]
    refine (newEntry_yields ha h).bind fun p hp => ?_
    obtain ⟨h', b, ns', he, hbec⟩ := hr.append hb hl hp v
    rw [he]
    exact .ok ⟨ns', hbec⟩
  · cases modify_existing with
    | false =>
      simp only [MapHeader.emplaceTempl, hb, orStuck_some, ok_bind, hfind, hl]
      exact .ok ⟨ns, .refl hr⟩
    | true =>
      obtain ⟨h₁, m₁, he₁, hbec₁, -⟩ := hr.eraseNode (Rep.bktId_lt hr key) hns
      have hid : m₁.bktId hash key = m.bktId hash key := by
        rw [bktId, bktId, hbec₁.num_buckets]
      obtain ⟨b₁, hb₁, -⟩ := hbec₁.holds.bucket (m₁.bktId hash key) (Rep.bktId_lt hbec₁.holds key)
      change m₁.buckets_.data (m₁.bktId hash key) = some b₁ at hb₁
      change m.eraseCollision h (m.bktId hash key) (some q) = some (h₁, m₁) at he₁
      simp only [MapHeader.emplaceTempl, hb, orStuck_some, ok_bind, hfind, Option.isSome_some,
        Bool.not_true, Bool.and_false, Bool.false_eq_true, if_false, if_true, Bool.true_or, he₁,
        hid ▸ hb₁]
      refine (newEntry_yields ha h₁).bind fun p hp => ?_
      obtain ⟨h₂, b, ns₂, he, hbec⟩ :=
        hbec₁.holds.append hb₁ (Finmap.lookup_erase key f) hp v
      rw [he]
      rw [hid] at hbec
      exact .ok ⟨ns₂, UnorderedMap.insert_erase f key v ▸ hbec₁.trans hbec⟩

end

theorem Holds.erase (hr : Holds hash h m ns f) (key : κ) :
    ∃ h' m' ns', m.erase hash h key = some (h', m') ∧
      Becomes hash h m ns f h' m' ns' (f.erase key) := by
  obtain ⟨bkt, hb, -, hcol⟩ := Rep.collision hr key
  change m.buckets_.data (m.bktId hash key) = some bkt at hb
  rcases hcol with ⟨hl, hfind⟩ | ⟨q, w, as, cs, hl, hfind, hns⟩
  · refine ⟨h, m, ns, ?_, ?_⟩
    · simp only [MapHeader.erase, hb, Option.bind_eq_bind, Option.bind_some, hfind]
    · rw [UnorderedMap.erase_absent hl]
      exact .refl hr
  · obtain ⟨h', m', he, hbec, -⟩ := hr.eraseNode (Rep.bktId_lt hr key) hns
    change m.eraseCollision h (m.bktId hash key) (some q) = some (h', m') at he
    refine ⟨h', m', _, ?_, hbec⟩
    simp only [MapHeader.erase, hb, Option.bind_eq_bind, Option.bind_some, hfind, he]

theorem Holds.eraseIter (hr : Holds hash h m ns f) {it : Iter}
    (hv : it.isEnd (m.view h) = true ∨ it.Valid (m.view h)) :
    ∃ h' m' ns' f', m.eraseIter h it = some (h', m') ∧ Becomes hash h m ns f h' m' ns' f' := by
  by_cases hend : it.isEnd (m.view h) = true
  · exact ⟨h, m, ns, f, if_pos hend, .refl hr⟩
  · obtain ⟨i, as, p, k, v, cs, rfl, hi, hns, -⟩ := Rep.node hr (hv.resolve_left hend)
    obtain ⟨h', m', he, hbec, -⟩ := hr.eraseNode hi hns
    exact ⟨h', m', _, _, (if_neg hend).trans he, hbec⟩

/-- Emptying the buckets leaves what is not the map's. -/
theorem Holds.destroy (hr : Holds hash h m ns f) :
    ∃ h' b, m.buckets_.clear h = some (h', b) ∧ b.length_ = 0 ∧
      b.max_length_ = m.buckets_.max_length_ ∧ ∀ q, ¬ Owns m ns q → h' q = h q := by
  obtain ⟨h', hd, hother⟩ := Rep.destroy hr (Nat.le_refl _)
  let b : BucketVec :=
    { m.buckets_ with
      data := fun i => if i < m.buckets_.length_ then none else m.buckets_.data i, length_ := 0 }
  refine ⟨h', b, ?_, rfl, rfl, fun q hq => hother q fun i hi hm => hq ⟨i, hi, hm⟩⟩
  change m.buckets_.destroy h m.buckets_.length_ = some h' at hd
  rw [BucketVec.clear, hd]
  rfl

/-- Buckets as `resize` makes them. -/
theorem Holds.empty {n : Nat} (hn : 0 < n) (h : Slist.Heap (κ × ν)) {b : BucketVec}
    (hb : b.length_ = 0) (hm : b.max_length_ ≤ n) (length_ : UInt64) :
    Holds hash h ⟨b.resize n, length_⟩ (fun _ => []) ∅ :=
  .of_rep (Rep.empty hn hb hm) length_

omit [DecidableEq κ] in
theorem owns_empty {b : BucketVec} {length_ : UInt64} :
    ¬ Owns ⟨b, length_⟩ (fun _ => ([] : Nodes κ ν)) q := by
  rintro ⟨i, hi, hq⟩
  cases hq

theorem Holds.clear (hr : Holds hash h m ns f) :
    ∃ h' m' ns', m.clear h = some (h', m') ∧ Holds hash h' m' ns' ∅ ∧ Keeps h m ns h' m' ns' ∧
      m'.drift (∅ : Model κ ν) = 0 := by
  obtain ⟨h', b, hc, hb, hm, hother⟩ := hr.destroy
  have hle : b.max_length_ ≤ m.buckets_.length_ := Nat.le_of_eq (hm.trans hr.max_length)
  refine ⟨h', ⟨b.resize m.buckets_.length_, 0⟩, _, ?_, .empty hr.pos h' hb hle 0,
    fun q _ hn => ⟨hother q hn, owns_empty⟩, by simp [MapHeader.drift]⟩
  simp only [MapHeader.clear, hc, Option.bind_eq_bind, Option.bind_some]

/-! ## Iterating -/

section
variable {it : Iter} {ms : Nodes κ ν} {n : Ptr × κ × ν}

theorem Holds.begin_ (hr : Holds hash h m ns f) :
    ∃ it, (m.view h).begin_ = some it ∧
      Ahead (m.view h) ns it (nodesFrom ns m.buckets_.length_ 0) := by
  obtain ⟨it, hit, ha⟩ := Rep.begin_ hr
  exact ⟨it, UnorderedMap.begin_length.trans hit, ha⟩

theorem Holds.next (hr : Holds hash h m ns f) (ha : Ahead (m.view h) ns it (n :: ms)) :
    ∃ it', (m.view h).next it = some it' ∧ Ahead (m.view h) ns it' ms := by
  obtain ⟨it', hit, ha⟩ := Rep.next hr ha
  exact ⟨it', (UnorderedMap.next_length it).trans hit, ha⟩

theorem Holds.deref (hr : Holds hash h m ns f) (ha : Ahead (m.view h) ns it (n :: ms)) :
    (m.view h).deref it = some n.2 :=
  Rep.deref (m := ⟨h, m.buckets_, f.keys.card⟩) hr ha

theorem Holds.numCollisions (hr : Holds hash h m ns f) {c i : Nat}
    (hc : i + c ≤ m.buckets_.length_) :
    numCollisions m.buckets_ c i = (nodesFrom ns c i).length := by
  induction c generalizing i with
  | zero => rfl
  | succ c ih =>
    have hi : i < m.buckets_.length_ := by omega
    obtain ⟨bkt, hb, hbr⟩ := hr.bucket i hi
    change m.buckets_.data i = some bkt at hb
    rw [MapHeader.numCollisions, hb, ih (by omega), nodesFrom, List.length_append, ← hbr.length]
    rfl

/-! ## The loop over the entries -/

variable {alloc : Slist.Heap (κ × ν) → Option Ptr} {other : MapHeader} {no : Nat → Nodes κ ν}

/-- What is left to copy of `f` into `g`: every entry is in `g` already, or one of the
nodes. -/
structure Left (f g : Model κ ν) (ms : Nodes κ ν) : Prop where
  mem : ∀ n ∈ ms, f.lookup n.2.1 = some n.2.2
  sub : ∀ k v, g.lookup k = some v → f.lookup k = some v
  rest : ∀ k v, f.lookup k = some v → g.lookup k = some v ∨ ∃ p, (p, k, v) ∈ ms

theorem Left.done (hd : Left f f' []) : f' = f := by
  refine Finmap.ext_lookup fun k => Option.ext fun v => ?_
  constructor
  · exact hd.sub k v
  · intro hk
    rcases hd.rest k v hk with hk | ⟨p, hp⟩
    · exact hk
    · cases hp

theorem Left.step (hd : Left f f' (n :: ms)) : Left f (f'.insert n.2.1 n.2.2) ms where
  mem := fun n' hn => hd.mem n' (List.mem_cons_of_mem _ hn)
  sub := fun k v hk => by
    by_cases hkn : k = n.2.1
    · subst hkn
      rw [Finmap.lookup_insert] at hk
      rw [← hk]
      exact hd.mem n List.mem_cons_self
    · rw [Finmap.lookup_insert_of_ne _ hkn] at hk
      exact hd.sub k v hk
  rest := fun k v hk => by
    by_cases hkn : k = n.2.1
    · subst hkn
      rw [Finmap.lookup_insert, ← hk]
      exact .inl (hd.mem n List.mem_cons_self).symm
    · rw [Finmap.lookup_insert_of_ne _ hkn]
      rcases hd.rest k v hk with hk | ⟨p, hp⟩
      · exact .inl hk
      · rcases List.mem_cons.mp hp with rfl | hp
        · exact absurd rfl hkn
        · exact .inr ⟨p, hp⟩

theorem copyEntries_spec (ha : Allocates alloc) {fuel : Nat} (ho : Holds hash h other no f)
    (hr : Holds hash h m ns f') (hap : ∀ q, Owns other no q → ¬ Owns m ns q)
    (hit : Ahead (other.view h) no it ms) (hfuel : ms.length ≤ fuel) (hd : Left f f' ms) :
    Yields (copyEntries hash alloc other fuel it h m) fun r =>
      ∃ ns', Becomes hash h m ns f' r.1 r.2 ns' f := by
  induction ms generalizing fuel it h m ns f' with
  | nil =>
    have hend : it.isEnd (other.view h) = true := by
      rcases hit with ⟨-, hend⟩ | ⟨i, as, n, cs, -, -, -, hms⟩
      · exact hend
      · cases hms
    have hloop : copyEntries hash alloc other fuel it h m = .ok (h, m) := by
      cases fuel <;> exact if_pos hend
    rw [hloop]
    exact .ok ⟨ns, hd.done ▸ .refl hr⟩
  | cons n ms ih =>
    have hend : ¬ (it.isEnd (other.view h) = true) := by
      rcases hit with ⟨hms, -⟩ | ⟨i, as, n', cs, rfl, hi, -, -⟩
      · cases hms
      · simpa [UnorderedMap.Iter.isEnd] using hi
    cases fuel with
    | zero => cases hfuel
    | succ fuel =>
      rw [copyEntries, if_neg hend, ho.deref hit, orStuck_some, ok_bind]
      refine (hr.emplaceTempl ha true n.2.1 n.2.2).bind ?_
      rintro ⟨b, h₁, m₁⟩ ⟨ns₁, hb⟩
      obtain ⟨ho₁, hap₁⟩ := ho.apart hb.keeps hap
      obtain ⟨it₁, hnext, hit₁⟩ := ho₁.next hit
      simp only [hnext, orStuck_some, ok_bind]
      rcases ih ho₁ hb.holds hap₁ hit₁ (Nat.le_of_succ_le_succ hfuel) hd.step with hm | hm
      · exact .inl hm
      · obtain ⟨r, hr, ns₂, hb₂⟩ := hm
        exact .inr ⟨r, hr, ns₂, hb.trans hb₂⟩

/-- The entries are inserted into resized buckets that hold some of them, or none. -/
theorem strongCopyOp_spec (ha : Allocates alloc) (ho : Holds hash h other no f)
    (hr : Holds hash h ⟨m.buckets_.resize other.buckets_.length_, m.length_⟩ ns f')
    (hap : ∀ q, Owns other no q →
      ¬ Owns ⟨m.buckets_.resize other.buckets_.length_, m.length_⟩ ns q)
    (hsub : ∀ k v, f'.lookup k = some v → f.lookup k = some v) :
    Yields (strongCopyOp hash alloc h m other) fun r =>
      ∃ ns', Becomes hash h ⟨m.buckets_.resize other.buckets_.length_, m.length_⟩ ns f'
        r.1 r.2 ns' f := by
  obtain ⟨it, hit, hahead⟩ := ho.begin_
  have hall : ∀ k v, f.lookup k = some v →
      ∃ p, (p, k, v) ∈ nodesFrom no other.buckets_.length_ 0 := fun k v hk => by
    obtain ⟨p, hp⟩ := (ho.entries k v).mp hk
    have hlt : _ < other.buckets_.length_ := Rep.bktId_lt ho k
    exact ⟨p, UnorderedMap.mem_nodesFrom.mpr ⟨_, Nat.zero_le _, by omega, hp⟩⟩
  have hd : Left f f' (nodesFrom no other.buckets_.length_ 0) := by
    refine ⟨fun n hn => ?_, hsub, fun k v hk => .inr (hall k v hk)⟩
    obtain ⟨j, -, hj, hn⟩ := UnorderedMap.mem_nodesFrom.mp hn
    have hj' : j < other.buckets_.length_ := by omega
    exact (Rep.lookup_of_mem ho hj' (p := n.1) (k := n.2.1) (v := n.2.2) hn).2
  simp only [strongCopyOp, hit, orStuck_some, ok_bind]
  refine copyEntries_spec ha ho hr hap hahead ?_ hd
  rw [ho.numCollisions (Nat.le_of_eq (Nat.zero_add _))]

/-! ## The loops over the buckets -/

/-- What a loop makes, `cs'`, is new; everything else that is in use stays. -/
def Fresh (h h' : Slist.Heap (κ × ν)) (cs cs' : Nodes κ ν) : Prop :=
  ∀ q, h q ≠ none → q ∉ ptrs cs → h' q = h q ∧ q ∉ ptrs cs'

omit [DecidableEq κ] in
theorem copyBucket_spec (ha : Allocates alloc) {pos : Option Ptr} {s : Slist} {cs : Nodes κ ν}
    {fuel : Nat} (hc : Chain (Slist.nextPtr h) pos (ptrs ms) none)
    (hd : ∀ n ∈ ms, (h n.1).map (·.data_) = some n.2) (hs : Represents h s cs)
    (hap : ∀ n ∈ ms, n.1 ∉ ptrs cs) (hf : ms.length ≤ fuel) :
    Yields (copyBucket alloc fuel pos h s) fun r =>
      ∃ cs', Represents r.1 r.2 cs' ∧ cs'.map Prod.snd = cs.map Prod.snd ++ ms.map Prod.snd ∧
        Fresh h r.1 cs cs' := by
  induction ms generalizing pos h s cs fuel with
  | nil =>
    obtain rfl := hc
    have hloop : copyBucket alloc fuel none h s = .ok (h, s) := by cases fuel <;> rfl
    rw [hloop]
    exact .ok ⟨cs, hs, by simp, fun q _ hq => ⟨rfl, hq⟩⟩
  | cons n ms ih =>
    obtain ⟨rfl, x, hx, hc⟩ := hc
    obtain ⟨e, he, rfl⟩ := Option.map_eq_some_iff.mp hx
    have hv := hd n List.mem_cons_self
    simp only [he, Option.map_some, Option.some.injEq] at hv
    cases fuel with
    | zero => cases hf
    | succ fuel =>
      simp only [copyBucket, he, orStuck_some, ok_bind]
      refine (newEntry_yields ha h).bind fun p hp => ?_
      obtain ⟨h₁, s₁, he₁, hs₁, hother⟩ := hs.emplaceBack hp e.data_
      -- the nodes of the other list are in use, so none of them is the new one
      have hkeep : ∀ n' ∈ n :: ms, h₁ n'.1 = h n'.1 := fun n' hn' => by
        refine hother _ (fun hnp => ?_) (hap n' hn')
        have := hd n' hn'
        rw [hnp, hp] at this
        cases this
      have hn₁ : h₁ n.1 = some e := (hkeep n List.mem_cons_self).trans he
      simp only [he₁, hn₁, orStuck_some, ok_bind]
      have hc₁ : Chain (Slist.nextPtr h₁) e.next_ptr_ (ptrs ms) none := hc.congr fun q hq => by
        obtain ⟨n', hn', rfl⟩ := List.mem_map.mp hq
        exact NodeHeap.link_congr (hkeep n' (List.mem_cons_of_mem _ hn'))
      have hd₁ : ∀ n' ∈ ms, (h₁ n'.1).map (·.data_) = some n'.2 := fun n' hn' => by
        rw [hkeep n' (List.mem_cons_of_mem _ hn')]
        exact hd n' (List.mem_cons_of_mem _ hn')
      have hap₁ : ∀ n' ∈ ms, n'.1 ∉ ptrs (cs ++ [(p, e.data_)]) := fun n' hn' hm => by
        simp only [ptrs, List.map_append, List.mem_append, List.map_cons, List.map_nil,
          List.mem_singleton] at hm
        rcases hm with hm | hm
        · exact hap n' (List.mem_cons_of_mem _ hn') hm
        · have := hd n' (List.mem_cons_of_mem _ hn')
          rw [hm, hp] at this
          cases this
      rcases ih hc₁ hd₁ hs₁ hap₁ (Nat.le_of_succ_le_succ hf) with hr | ⟨r, hr, cs', hr', hsnd, hfr⟩
      · exact .inl hr
      · refine .inr ⟨r, hr, cs', hr', ?_, fun q hq hqc => ?_⟩
        · rw [hsnd, hv]
          simp
        · have hqp : q ≠ p := fun he => hq (he ▸ hp)
          have hq₁ := hother q hqp hqc
          have hq₂ := hfr q (hq₁ ▸ hq) (by simpa [ptrs, hqp] using hqc)
          exact ⟨hq₂.1.trans hq₁, hq₂.2⟩

/-- `v` has copies of the first buckets of a map with `n` buckets, whose nodes
are `no`. -/
structure CopiedBuckets (no : Nat → Nodes κ ν) (n : Nat) (h : Slist.Heap (κ × ν)) (v : BucketVec)
    (ns : Nat → Nodes κ ν) : Prop where
  length_le : v.length_ ≤ n
  max_length : v.max_length_ = n
  bucket : ∀ i < v.length_, ∃ bkt, v.data i = some bkt ∧ Represents h bkt (ns i)
  disjoint : ∀ i < v.length_, ∀ j < v.length_, i ≠ j → ∀ p ∈ ptrs (ns i), p ∉ ptrs (ns j)
  same : ∀ i < v.length_, (ns i).map Prod.snd = (no i).map Prod.snd

section
variable {v : BucketVec} {n : Nat}

omit [DecidableEq κ] in
theorem CopiedBuckets.emplaceBack (hv : CopiedBuckets no n h v ns) (hlt : v.length_ < n)
    {s : Slist} {cs : Nodes κ ν} (hs : Represents h' s cs)
    (hsame : cs.map Prod.snd = (no v.length_).map Prod.snd) (hfr : Fresh h h' [] cs) :
    CopiedBuckets no n h' (v.emplaceBack s) (Function.update ns v.length_ cs) ∧
      (v.emplaceBack s).length_ = v.length_ + 1 := by
  have hroom : ¬ v.length_ = v.max_length_ := by rw [hv.max_length]; exact Nat.ne_of_lt hlt
  have hpush : v.emplaceBack s = { v.set v.length_ s with length_ := v.length_ + 1 } := by
    rw [BucketVec.emplaceBack, if_neg hroom]
  -- the copied nodes are in use, so they stay and are not the new ones
  have hlive : ∀ i < v.length_, ∀ q ∈ ptrs (ns i), h' q = h q ∧ q ∉ ptrs cs := fun i hi q hq => by
    obtain ⟨bkt, -, hb⟩ := hv.bucket i hi
    exact hfr q (fun hn => hb.not_mem hn hq) (List.not_mem_nil)
  rw [hpush]
  refine ⟨⟨hlt, hv.max_length, fun i hi => ?_, fun i hi j hj hij p hp => ?_, fun i hi => ?_⟩, rfl⟩
  · rcases Nat.lt_succ_iff_lt_or_eq.mp hi with hi | rfl
    · obtain ⟨bkt, hd, hb⟩ := hv.bucket i hi
      refine ⟨bkt, (Function.update_of_ne (Nat.ne_of_lt hi) ..).trans hd, ?_⟩
      rw [Function.update_of_ne (Nat.ne_of_lt hi)]
      exact hb.congr fun q hq => (hlive i hi q hq).1
    · exact ⟨s, Function.update_self .., by rw [Function.update_self]; exact hs⟩
  · rcases Nat.lt_succ_iff_lt_or_eq.mp hi with hi | rfl
    · rw [Function.update_of_ne (Nat.ne_of_lt hi)] at hp
      rcases Nat.lt_succ_iff_lt_or_eq.mp hj with hj | rfl
      · rw [Function.update_of_ne (Nat.ne_of_lt hj)]
        exact hv.disjoint i hi j hj hij p hp
      · rw [Function.update_self]
        exact (hlive i hi p hp).2
    · rw [Function.update_self] at hp
      rcases Nat.lt_succ_iff_lt_or_eq.mp hj with hj | rfl
      · rw [Function.update_of_ne (Nat.ne_of_lt hj)]
        exact fun hq => (hlive j hj p hq).2 hp
      · exact absurd rfl hij
  · rcases Nat.lt_succ_iff_lt_or_eq.mp hi with hi | rfl
    · rw [Function.update_of_ne (Nat.ne_of_lt hi)]
      exact hv.same i hi
    · rw [Function.update_self]
      exact hsame

theorem copyBuckets_spec (ha : Allocates alloc) (ho : Holds hash h other no f) {c : Nat}
    (hv : CopiedBuckets no other.buckets_.length_ h v ns)
    (hc : v.length_ + c = other.buckets_.length_)
    (hap : ∀ q, Owns other no q → ¬ Owns ⟨v, 0⟩ ns q) :
    Yields (copyBuckets alloc other.buckets_ c h v) fun r =>
      ∃ ns', CopiedBuckets no other.buckets_.length_ r.1 r.2 ns' ∧
        r.2.length_ = other.buckets_.length_ ∧ Keeps h ⟨v, 0⟩ ns r.1 ⟨r.2, 0⟩ ns' := by
  induction c generalizing h v ns with
  | zero => exact .ok ⟨ns, hv, hc, .refl⟩
  | succ c ih =>
    have hi : v.length_ < other.buckets_.length_ := by omega
    obtain ⟨bkt, hb, hbr⟩ := ho.bucket v.length_ hi
    change other.buckets_.data v.length_ = some bkt at hb
    change Represents h bkt (no v.length_) at hbr
    rw [copyBuckets, show other.buckets_.length_ - (c + 1) = v.length_ by omega, hb, orStuck_some,
      ok_bind, hbr.begin_, ← hbr.next.head_none]
    refine (copyBucket_spec ha hbr.next hbr.data (.init h) (fun _ _ => List.not_mem_nil)
      (Nat.le_of_eq hbr.length.symm)).bind ?_
    rintro ⟨h₁, s⟩ ⟨cs, hs, hsame, hfr⟩
    obtain ⟨hv₁, hlen⟩ := hv.emplaceBack hi hs hsame hfr
    have hkeep : Keeps h ⟨v, 0⟩ ns h₁ ⟨v.emplaceBack s, 0⟩ (Function.update ns v.length_ cs) := by
      intro q hq hn
      obtain ⟨he, hqc⟩ := hfr q hq List.not_mem_nil
      refine ⟨he, ?_⟩
      rintro ⟨j, hj, hm⟩
      change j < (v.emplaceBack s).length_ at hj
      rw [hlen] at hj
      rcases Nat.lt_succ_iff_lt_or_eq.mp hj with hj | rfl
      · rw [Function.update_of_ne (Nat.ne_of_lt hj)] at hm
        exact hn ⟨j, hj, hm⟩
      · rw [Function.update_self] at hm
        exact hqc hm
    obtain ⟨ho₁, hap₁⟩ := ho.apart hkeep hap
    rcases ih ho₁ hv₁ (by omega) hap₁ with hr | ⟨r, hr, ns', hv', hlen', hkeep'⟩
    · exact .inl hr
    · exact .inr ⟨r, hr, ns', hv', hlen', hkeep.trans hkeep'⟩

/-- Copies of all the buckets are a map with the same entries. -/
theorem CopiedBuckets.holds (ho : Holds hash h other no f)
    (hv : CopiedBuckets no other.buckets_.length_ h' v ns)
    (hlen : v.length_ = other.buckets_.length_) (length_ : UInt64) :
    Holds hash h' ⟨v, length_⟩ ns f where
  pos := hlen ▸ ho.pos
  max_length := hv.max_length.trans hlen.symm
  bucket := hv.bucket
  disjoint := hv.disjoint
  placed := fun i hi e he => by
    obtain ⟨e', he', hee⟩ := List.mem_map.mp (hv.same i hi ▸ List.mem_map_of_mem he)
    have := ho.placed i (hlen ▸ hi) e' he'
    rw [hee, ← hlen] at this
    exact this
  nodup := fun i hi => by
    have := ho.nodup i (hlen ▸ hi)
    rw [show (fun n : Ptr × κ × ν => n.2.1) = Prod.fst ∘ Prod.snd from rfl,
      ← List.map_map] at this ⊢
    rw [hv.same i hi]
    exact this
  entries := fun k w => by
    have hlt : hash k % other.buckets_.length_ < v.length_ := by
      rw [hlen]
      exact Rep.bktId_lt ho k
    have hsame := hv.same _ hlt
    have hb : UnorderedMap.bktId hash (⟨h', v, f.keys.card⟩ : UnorderedMap κ ν) k =
        hash k % other.buckets_.length_ := by
      rw [UnorderedMap.bktId, hlen]
    have hmem : ∀ ms : Nodes κ ν, (∃ p, (p, k, w) ∈ ms) ↔ (k, w) ∈ ms.map Prod.snd := by simp
    rw [ho.entries, hb, hmem, hmem, hsame]
    rfl
  length := rfl

/-- Resizing to the same number of buckets changes none. -/
theorem Holds.resize (hr : Holds hash h m ns f) (length_ : UInt64) :
    Holds hash h ⟨m.buckets_.resize m.buckets_.length_, length_⟩ ns f ∧
      (m.buckets_.resize m.buckets_.length_).length_ = m.buckets_.length_ := by
  have h0 : m.buckets_.length_ ≠ 0 := Nat.pos_iff_ne_zero.mp hr.pos
  have hmax : m.buckets_.max_length_ = m.buckets_.length_ := hr.max_length
  have hg : ¬ m.buckets_.length_ < m.buckets_.max_length_ := by omega
  have hres : m.buckets_.resize m.buckets_.length_ =
      { data := fun i =>
          if i < m.buckets_.length_ then m.buckets_.data i
          else if i < m.buckets_.length_ then some {} else none
        length_ := m.buckets_.length_
        max_length_ := m.buckets_.length_ } := by
    rw [BucketVec.resize, if_neg h0, BucketVec.growVector, if_neg hg]
  rw [hres]
  refine ⟨⟨hr.pos, rfl, fun i hi => ?_, hr.disjoint, hr.placed, hr.nodup, hr.entries, rfl⟩, rfl⟩
  obtain ⟨bkt, hd, hb⟩ := hr.bucket i hi
  exact ⟨bkt, (if_pos hi).trans hd, hb⟩

end

/-! ## The copy constructor and the copy assignment -/

theorem Holds.copyConstruct (ha : Allocates alloc) (ho : Holds hash h other no f) (word : UInt64) :
    Yields (copyConstruct hash alloc word h other) fun r =>
      ∃ ns', Holds hash r.1 r.2 ns' f ∧ Keeps h ⟨{}, 0⟩ (fun _ => []) r.1 r.2 ns' ∧
        r.2.length_ = word := by
  have hpos : 0 < other.buckets_.length_ := ho.pos
  have hv : CopiedBuckets no other.buckets_.length_ h
      (BucketVec.reserve {} other.buckets_.length_) (fun _ => []) := by
    have hg : ¬ (other.buckets_.length_ = 0 ∨ other.buckets_.length_ < 0) := by omega
    rw [BucketVec.reserve, if_neg hg]
    exact ⟨Nat.zero_le _, rfl, nofun, nofun, nofun⟩
  have hlen : (BucketVec.reserve {} other.buckets_.length_).length_ = 0 := by
    rw [BucketVec.reserve]
    split <;> rfl
  refine (copyBuckets_spec ha ho hv (by omega) fun q _ => owns_empty).bind ?_
  rintro ⟨h₁, b⟩ ⟨ns₁, hv₁, hlen₁, hkeep₁⟩
  obtain ⟨hr, hlen₂⟩ := (hv₁.holds ho hlen₁ word).resize word
  obtain ⟨ho₁, hap⟩ := ho.apart hkeep₁ fun q _ => owns_empty
  rw [hlen₁] at hr hlen₂
  have hap' : ∀ q, Owns other no q → ¬ Owns ⟨b.resize other.buckets_.length_, word⟩ ns₁ q := by
    rintro q hq ⟨i, hi, hm⟩
    exact hap q hq ⟨i, by rw [hlen₁]; exact hlen₂ ▸ hi, hm⟩
  rcases strongCopyOp_spec ha (m := ⟨b, word⟩) ho₁ hr hap' (fun _ _ h => h) with hs | hs
  · exact .inl hs
  · obtain ⟨r, hr', ns', hb⟩ := hs
    refine .inr ⟨r, hr', ns', hb.holds, fun q hq hn => ?_, ?_⟩
    · obtain ⟨he, hn₁⟩ := hkeep₁ q hq (by rintro ⟨i, hi, hm⟩; cases hm)
      have hn₂ : ¬ Owns ⟨b.resize other.buckets_.length_, word⟩ ns₁ q := by
        rintro ⟨i, hi, hm⟩
        exact hn₁ ⟨i, by rw [hlen₁]; exact hlen₂ ▸ hi, hm⟩
      obtain ⟨he', hn'⟩ := hb.keeps q (he ▸ hq) hn₂
      exact ⟨he'.trans he, hn'⟩
    · have := hb.drift
      simp only [MapHeader.drift] at this
      grind

/-- No map: not made yet, or destroyed. -/
def Absent (m : MapHeader) : Prop := m.buckets_.max_length_ = 0 ∧ m.buckets_.length_ = 0

omit [DecidableEq κ] in
theorem Absent.not_owns (hm : m.Absent) : ¬ Owns m ns q := by
  rintro ⟨i, hi, -⟩
  rw [hm.2] at hi
  cases hi

theorem Holds.isNull (hr : Holds hash h m ns f) : m.isNull = false := by
  have hpos : 0 < m.buckets_.length_ := hr.pos
  have hmax : m.buckets_.max_length_ = m.buckets_.length_ := hr.max_length
  exact beq_false_of_ne (by omega)

theorem shmDestroy_spec (hm : m.Absent ∨ Holds hash h m ns f) :
    ∃ h' m', m.shmDestroy h = some (h', m') ∧ m'.Absent ∧ m'.length_ = m.length_ ∧
      ∀ q, ¬ Owns m ns q → h' q = h q := by
  rcases hm with hm | hr
  · exact ⟨h, m, if_pos (beq_of_eq hm.1), hm, rfl, fun _ _ => rfl⟩
  · obtain ⟨h', b, hc, -, -, hother⟩ := hr.destroy
    refine ⟨h', { m with buckets_ := {} }, ?_, ⟨rfl, rfl⟩, rfl, hother⟩
    rw [shmDestroy, hr.isNull, if_neg Bool.false_ne_true, hc]
    rfl

/-- The length of the target goes on from where it was. -/
theorem Holds.copyAssign (ha : Allocates alloc) {g : Model κ ν} (ho : Holds hash h other no f)
    (hm : m.Absent ∨ Holds hash h m ns g) (hap : ∀ q, Owns other no q → ¬ Owns m ns q) :
    Yields (copyAssign hash alloc h m other) fun r =>
      ∃ ns', Holds hash r.1 r.2 ns' f ∧ Keeps h m ns r.1 r.2 ns' ∧ r.2.drift f = m.length_ := by
  obtain ⟨h₁, m₁, hdes, habs, hlen, hother⟩ := shmDestroy_spec hm
  have hkeep₁ : Keeps h m ns h₁ m₁ (fun _ => []) := fun q _ hn => ⟨hother q hn, habs.not_owns⟩
  obtain ⟨ho₁, -⟩ := ho.apart hkeep₁ hap
  have hpos : 0 < other.buckets_.length_ := ho.pos
  have hle : m₁.buckets_.max_length_ ≤ other.buckets_.length_ := by rw [habs.1]; exact Nat.zero_le _
  have hr : Holds hash h₁ ⟨m₁.buckets_.resize other.buckets_.length_, m₁.length_⟩ (fun _ => []) ∅ :=
    .empty hpos h₁ habs.2 hle m₁.length_
  simp only [MapHeader.copyAssign, hdes, orStuck_some, ok_bind]
  have hsub : ∀ k v, (∅ : Model κ ν).lookup k = some v → f.lookup k = some v := by simp
  rcases strongCopyOp_spec ha ho₁ hr (fun _ _ => owns_empty) hsub with hs | ⟨r, hr', ns', hb⟩
  · exact .inl hs
  · refine .inr ⟨r, hr', ns', hb.holds, fun q hq hn => ?_, ?_⟩
    · obtain ⟨he, -⟩ := hkeep₁ q hq hn
      obtain ⟨he', hn'⟩ := hb.keeps q (he ▸ hq) owns_empty
      exact ⟨he'.trans he, hn'⟩
    · rw [hb.drift, MapHeader.drift, ← hlen]
      simp

end

/-- A change keeps a right length right. -/
theorem Holds.change {alloc : Slist.Heap (κ × ν) → Option Ptr} (ha : Allocates alloc)
    (hr : Holds hash h m ns f) {c : MapChange κ ν}
    (hl : ∀ it, c = .eraseIter it → it.isEnd (m.view h) = true ∨ it.Valid (m.view h)) :
    Yields (Maps.change hash alloc h m c) fun r =>
      ∃ ns' f', Holds hash r.1 r.2 ns' f' ∧ Keeps h m ns r.1 r.2 ns' ∧
        (m.drift f = 0 → r.2.drift f' = 0) := by
  have hkeep : ∀ {r : Slist.Heap (κ × ν) × MapHeader} {ns' f'},
      Becomes hash h m ns f r.1 r.2 ns' f' →
      ∃ ns' f', Holds hash r.1 r.2 ns' f' ∧ Keeps h m ns r.1 r.2 ns' ∧
        (m.drift f = 0 → r.2.drift f' = 0) :=
    fun hb => ⟨_, _, hb.holds, hb.keeps, fun h0 => hb.drift.trans h0⟩
  cases c with
  | emplace key v =>
    refine (hr.emplaceTempl ha true key v).map ?_
    rintro r ⟨ns', hb⟩
    exact hkeep hb
  | tryEmplace key v =>
    refine (hr.emplaceTempl ha false key v).map ?_
    rintro r ⟨ns', hb⟩
    exact hkeep hb
  | erase key =>
    obtain ⟨h', m', ns', he, hb⟩ := hr.erase key
    rw [Maps.change, he]
    exact .ok (hkeep hb)
  | eraseIter it =>
    obtain ⟨h', m', ns', f', he, hb⟩ := hr.eraseIter (hl it rfl)
    rw [Maps.change, he]
    exact .ok (hkeep hb)
  | clear =>
    obtain ⟨h', m', ns', he, hr', hk, h0⟩ := hr.clear
    rw [Maps.change, he]
    exact .ok ⟨ns', ∅, hr', hk, fun _ => h0⟩

end MapHeader

end HermesShm.Ipc
