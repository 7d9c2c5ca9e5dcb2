import HermesShm.Ipc.UnorderedMapCopySound

/-! # Copies of unordered maps in runs

Any number of maps in one heap, made, changed, copied and destroyed in any order. -/
namespace HermesShm.Ipc
open HermesShm.Base
open UnorderedMap (Model Nodes Rep nodesFrom)

variable {κ ν : Type}

namespace Maps
open MapHeader

variable {ι : Type} [DecidableEq κ] {hash : κ → Nat} {w w' : Maps ι κ ν} {i j : ι}

section
variable {ns : Nat → Nodes κ ν} {f : Model κ ν}

omit [DecidableEq κ] in
theorem Lists.unique {es es' : List (κ × ν)} (h : w.Lists i es) (h' : w.Lists i es') :
    es = es' := by
  obtain ⟨it, hb, hv⟩ := h
  obtain ⟨it', hb', hv'⟩ := h'
  obtain rfl := Option.some.inj (hb.symm.trans hb')
  exact Option.some.inj ((hv _ (Nat.le_max_left _ es'.length)).symm.trans
    (hv' _ (Nat.le_max_right es.length _)))

theorem lists (hr : Holds hash w.heap (w.map i) ns f) :
    w.Lists i ((nodesFrom ns (w.map i).buckets_.length_ 0).map Prod.snd) := by
  obtain ⟨it, hit, ha⟩ := hr.begin_
  refine ⟨it, hit, fun fuel hf => ?_⟩
  have hf' : (nodesFrom ns (w.map i).buckets_.length_ 0).length ≤ fuel := by simpa using hf
  have hv := Rep.visit (m := ⟨w.heap, (w.map i).buckets_, f.keys.card⟩) hr ha hf'
  exact (UnorderedMap.visit_length fuel it).trans hv

/-- What iteration meets: every entry, once. -/
theorem mem_lists (hr : Holds hash w.heap (w.map i) ns f) {es : List (κ × ν)}
    (hes : w.Lists i es) :
    (es.map Prod.fst).Nodup ∧ (∀ k v, (k, v) ∈ es ↔ f.lookup k = some v) ∧
      es.length = f.keys.card := by
  obtain rfl := hes.unique (lists hr)
  obtain ⟨it, es, hb, hv, hnd, hmem⟩ := Rep.iterate hr
  have hes : w.Lists i es := by
    refine ⟨it, UnorderedMap.begin_length.trans hb, fun fuel hf => ?_⟩
    exact (UnorderedMap.visit_length fuel it).trans (hv fuel hf)
  obtain rfl := hes.unique (lists hr)
  refine ⟨hnd, hmem, ?_⟩
  generalize (nodesFrom ns (w.map i).buckets_.length_ 0).map Prod.snd = es at *
  have hkeys : f.keys = (es.map Prod.fst).toFinset := by
    ext k
    rw [Finmap.mem_keys, Finmap.mem_iff, List.mem_toFinset, List.mem_map]
    constructor
    · rintro ⟨v, hk⟩
      exact ⟨(k, v), (hmem k v).mpr hk, rfl⟩
    · rintro ⟨⟨k, v⟩, hk, rfl⟩
      exact ⟨v, (hmem k v).mp hk⟩
  rw [hkeys, List.toFinset_card_of_nodup hnd, List.length_map]

theorem counted_iff (hr : Holds hash w.heap (w.map i) ns f) :
    w.Counted i ↔ (w.map i).drift f = 0 := by
  have hdrift : (w.map i).drift f = 0 ↔ (w.map i).length_ = UInt64.ofNat f.keys.card := by
    rw [MapHeader.drift]
    constructor <;> intro h <;> grind
  rw [hdrift]
  constructor
  · rintro ⟨es, hes, hlen⟩
    rw [hlen, (mem_lists hr hes).2.2]
  · intro hlen
    exact ⟨_, lists hr, by rw [hlen, (mem_lists hr (lists hr)).2.2]⟩

end

/-! ## Runs -/

/-- Maps that own nothing together, each a finite map. -/
structure Sound (hash : κ → Nat) (w : Maps ι κ ν) (ns : ι → Nat → Nodes κ ν) (f : ι → Model κ ν) :
    Prop where
  map : ∀ i, (w.map i).Absent ∨ Holds hash w.heap (w.map i) (ns i) (f i)
  apart : ∀ i j, i ≠ j → ∀ q, Owns (w.map i) (ns i) q → ¬ Owns (w.map j) (ns j) q

variable {ns : ι → Nat → Nodes κ ν} {f : ι → Model κ ν}

theorem Sound.holds (hs : Sound hash w ns f) (hi : (w.map i).isNull = false) :
    Holds hash w.heap (w.map i) (ns i) (f i) := by
  rcases hs.map i with ha | hr
  · rw [isNull, ha.1] at hi
    cases hi
  · exact hr

theorem Sound.init : Sound hash ({} : Maps ι κ ν) (fun _ _ => []) fun _ => ∅ where
  map := fun _ => .inl ⟨rfl, rfl⟩
  apart := fun _ _ _ _ => nofun

variable [DecidableEq ι]

/-- One map changes. -/
theorem Sound.set (hs : Sound hash w ns f) {r : Slist.Heap (κ × ν) × MapHeader}
    {nr : Nat → Nodes κ ν} {fr : Model κ ν} (hr : r.2.Absent ∨ Holds hash r.1 r.2 nr fr)
    (hk : Keeps w.heap (w.map i) (ns i) r.1 r.2 nr) :
    Sound hash (w.set i r) (Function.update ns i nr) (Function.update f i fr) := by
  have hother : ∀ k, k ≠ i →
      ((w.map k).Absent ∨ Holds hash r.1 (w.map k) (ns k) (f k)) ∧
        ∀ q, Owns (w.map k) (ns k) q → ¬ Owns r.2 nr q := fun k hki => by
    rcases hs.map k with ha | hk'
    · exact ⟨.inl ha, fun q hq => absurd hq ha.not_owns⟩
    · exact (hk'.apart hk (hs.apart k i hki)).imp .inr id
  refine ⟨fun k => ?_, fun k l hkl q => ?_⟩
  · by_cases hki : k = i
    · subst hki
      rw [set_self, Function.update_self, Function.update_self]
      exact hr
    · rw [set_of_ne hki, Function.update_of_ne hki, Function.update_of_ne hki]
      exact (hother k hki).1
  · by_cases hki : k = i
    · subst hki
      rw [set_self, Function.update_self, set_of_ne hkl.symm, Function.update_of_ne hkl.symm]
      exact fun hq hl => (hother l hkl.symm).2 q hl hq
    · rw [set_of_ne hki, Function.update_of_ne hki]
      by_cases hli : l = i
      · subst hli
        rw [set_self, Function.update_self]
        exact (hother k hki).2 q
      · rw [set_of_ne hli, Function.update_of_ne hli]
        exact hs.apart k l hkl q

variable {alloc : Slist.Heap (κ × ν) → Option Ptr}

/-- A change of a map: no map goes away, and right lengths stay right. -/
theorem Sound.change (ha : Allocates alloc) (hs : Sound hash w ns f) {c : MapChange κ ν}
    (hl : w.Legal (.change i c)) :
    Yields (w.call hash alloc (.change i c)) fun w' => ∃ ns' f', Sound hash w' ns' f' ∧
      ∀ k, (w'.map k).isNull = (w.map k).isNull ∧
        ((w.map k).drift (f k) = 0 → (w'.map k).drift (f' k) = 0) := by
  obtain ⟨hi, hc⟩ := hl
  have hv : ∀ it, c = .eraseIter it →
      it.isEnd ((w.map i).view w.heap) = true ∨ it.Valid ((w.map i).view w.heap) := by
    rintro it rfl
    exact hc
  refine ((hs.holds hi).change ha hv).map ?_
  rintro r ⟨nr, fr, hr, hk, h0⟩
  refine ⟨_, _, hs.set (.inr hr) hk, fun k => ?_⟩
  by_cases hki : k = i
  · subst hki
    rw [set_self, Function.update_self]
    exact ⟨hr.isNull.trans hi.symm, h0⟩
  · rw [set_of_ne hki, Function.update_of_ne hki]
    exact ⟨rfl, id⟩

theorem Sound.copyConstruct (ha : Allocates alloc) (hs : Sound hash w ns f)
    (hi : (w.map i).isNull = true) (hj : (w.map j).isNull = false) (word : UInt64) :
    Yields (w.copyConstruct hash alloc i j word) fun w' => ∃ ns',
      Sound hash w' (Function.update ns i ns') (Function.update f i (f j)) ∧
        (w'.map i).length_ = word ∧ (w'.map i).isNull = false ∧
        ∀ k, k ≠ i → w'.map k = w.map k := by
  have habs : (w.map i).Absent := by
    rcases hs.map i with ha | hr
    · exact ha
    · rw [hr.isNull] at hi
      cases hi
  refine ((hs.holds hj).copyConstruct ha word).map ?_
  rintro r ⟨nr, hr, hk, hlen⟩
  have hk' : Keeps w.heap (w.map i) (ns i) r.1 r.2 nr := fun q hq _ => hk q hq owns_empty
  exact ⟨nr, hs.set (.inr hr) hk', by rw [set_self, hlen], by rw [set_self, hr.isNull],
    fun k hki => set_of_ne hki w r⟩

theorem Sound.copyAssign (ha : Allocates alloc) (hs : Sound hash w ns f) (hij : i ≠ j)
    (hj : (w.map j).isNull = false) :
    Yields (w.copyAssign hash alloc i j) fun w' => ∃ ns',
      Sound hash w' (Function.update ns i ns') (Function.update f i (f j)) ∧
        (w'.map i).drift (f j) = (w.map i).length_ ∧ (w'.map i).isNull = false ∧
        ∀ k, k ≠ i → w'.map k = w.map k := by
  rw [Maps.copyAssign, if_neg hij]
  refine ((hs.holds hj).copyAssign ha (hs.map i) (hs.apart j i hij.symm)).map ?_
  rintro r ⟨nr, hr, hk, hlen⟩
  exact ⟨nr, hs.set (.inr hr) hk, by rw [set_self, hlen], by rw [set_self, hr.isNull],
    fun k hki => set_of_ne hki w r⟩

/-- A copy that the lengths fit: none in the target, or the source's length in the
memory of the new map. -/
def LengthFits (w : Maps ι κ ν) : MapCall ι κ ν → Prop
  | .copyConstruct _ j word => word = (w.map j).length_
  | .copyAssign i j => i ≠ j → (w.map i).length_ = 0
  | _ => True

/-- Every map has the right length. -/
def Right (w : Maps ι κ ν) (f : ι → Model κ ν) : Prop :=
  ∀ k, (w.map k).isNull = false → (w.map k).drift (f k) = 0

omit [DecidableEq κ] in
theorem Right.update (h : Right w f) (hother : ∀ k, k ≠ i → w'.map k = w.map k) {fr : Model κ ν}
    (hi : (w'.map i).isNull = false → (w'.map i).drift fr = 0) :
    Right w' (Function.update f i fr) := by
  intro k hk
  by_cases hki : k = i
  · subst hki
    rw [Function.update_self]
    exact hi hk
  · rw [Function.update_of_ne hki]
    rw [hother k hki] at hk ⊢
    exact h k hk

/-- **Step lemma.** -/
theorem Sound.step (ha : Allocates alloc) (hs : Sound hash w ns f) {l : MapCall ι κ ν}
    (hl : w.Legal l) :
    Yields (w.call hash alloc l) fun w' => ∃ ns' f', Sound hash w' ns' f' ∧
      (w.LengthFits l → Right w f → Right w' f') := by
  cases l with
  | shmInit i n =>
    obtain ⟨hi, hn⟩ := hl
    have hr : Holds hash w.heap (MapHeader.shmInit n) (fun _ => []) ∅ :=
      .empty hn w.heap rfl (Nat.zero_le n) 0
    refine .ok ⟨_, _, hs.set (.inr hr) fun q _ _ => ⟨rfl, owns_empty⟩, fun _ h =>
      h.update (fun k hki => set_of_ne hki w _) fun _ => ?_⟩
    simp [MapHeader.drift, MapHeader.shmInit]
  | shmDestroy i =>
    obtain ⟨h', m', hd, habs, -, hother⟩ := shmDestroy_spec (hs.map i)
    have hk : Keeps w.heap (w.map i) (ns i) h' m' (ns i) :=
      fun q _ hn => ⟨hother q hn, habs.not_owns⟩
    rw [call, hd]
    have hm : m'.Absent ∨ Holds hash h' m' (ns i) ∅ := .inl habs
    refine .ok ⟨_, _, hs.set hm hk, fun _ h =>
      h.update (fun k hki => set_of_ne hki w _) fun hn => ?_⟩
    rw [set_self, isNull, habs.1] at hn
    cases hn
  | change i c =>
    rcases hs.change ha hl with hr | ⟨w', hr, ns', f', hs', hright⟩
    · exact .inl hr
    · refine .inr ⟨w', hr, ns', f', hs', fun _ h k hk => ?_⟩
      exact (hright k).2 (h k ((hright k).1.symm.trans hk))
  | copyConstruct i j word =>
    rcases hs.copyConstruct ha hl.1 hl.2 word with hr | ⟨w', hr, ns', hs', hlen, hi', hother⟩
    · exact .inl hr
    · refine .inr ⟨w', hr, _, _, hs', fun hfit h => h.update hother fun _ => ?_⟩
      rw [MapHeader.drift, hlen, show word = (w.map j).length_ from hfit]
      exact h j hl.2
  | copyAssign i j =>
    by_cases hij : i = j
    · rw [call, Maps.copyAssign, if_pos hij]
      exact .ok ⟨ns, f, hs, fun _ h => h⟩
    · rcases hs.copyAssign ha hij hl with hr | ⟨w', hr, ns', hs', hd, hi', hother⟩
      · exact .inl hr
      · refine .inr ⟨w', hr, _, _, hs', fun hfit h => h.update hother fun _ => ?_⟩
        rw [hd]
        exact hfit hij

/-- **Run lemma.** -/
theorem run_sound (ha : Allocates alloc) {ls : List (MapCall ι κ ν)}
    (hrun : Run (Maps.step hash alloc) Legal {} ls w) : ∃ ns f, Sound hash w ns f := by
  refine hrun.invariant (I := fun w => ∃ ns f, Sound hash w ns f) ⟨_, _, .init⟩ ?_
  rintro w l w' ⟨ns, f, hs⟩ hl hstep
  rcases hs.step ha hl with hr | ⟨w₁, hr, ns', f', hs', -⟩
  · rw [Maps.step, hr] at hstep
    cases hstep
  · rw [Maps.step, hr] at hstep
    cases hstep
    exact ⟨ns', f', hs'⟩

/-- The lengths are right in runs whose copies they fit. -/
theorem counted_of_fits (ha : Allocates alloc) {ls : List (MapCall ι κ ν)}
    (hrun : Run (Maps.step hash alloc) (fun w l => w.Legal l ∧ w.LengthFits l) {} ls w)
    (hi : (w.map i).isNull = false) : w.Counted i := by
  have hinv : ∃ ns f, Sound hash w ns f ∧ Right w f := by
    refine hrun.invariant (I := fun w => ∃ ns f, Sound hash w ns f ∧ Right w f)
      ⟨_, _, .init, fun k hk => by cases hk⟩ ?_
    rintro w l w' ⟨ns, f, hs, h⟩ ⟨hl, hfit⟩ hstep
    rcases hs.step ha hl with hr | ⟨w₁, hr, ns', f', hs', hright⟩
    · rw [Maps.step, hr] at hstep
      cases hstep
    · rw [Maps.step, hr] at hstep
      cases hstep
      exact ⟨ns', f', hs', hright hfit h⟩
  obtain ⟨ns, f, hs, h⟩ := hinv
  exact (counted_iff (hs.holds hi)).mpr (h i hi)

/-- Changes keep right lengths right, in runs too. -/
theorem counted_of_run (ha : Allocates alloc) (hs : Sound hash w ns f)
    (hi : (w.map i).isNull = false) (h0 : (w.map i).drift (f i) = 0) {ls : List (MapCall ι κ ν)}
    (hrun : Run (Maps.step hash alloc) (fun w l => w.Legal l ∧ ∃ k c, l = .change k c) w ls w') :
    w'.Counted i := by
  have hinv : ∃ ns f, Sound hash w' ns f ∧ (w'.map i).isNull = false ∧
      (w'.map i).drift (f i) = 0 := by
    refine hrun.invariant (I := fun w => ∃ ns f, Sound hash w ns f ∧ (w.map i).isNull = false ∧
      (w.map i).drift (f i) = 0) ⟨ns, f, hs, hi, h0⟩ ?_
    rintro w l w' ⟨ns, f, hs, hi, h0⟩ ⟨hl, k, c, rfl⟩ hstep
    rcases hs.change ha hl with hr | ⟨w₁, hr, ns', f', hs', hkeep⟩
    · rw [Maps.step, hr] at hstep
      cases hstep
    · rw [Maps.step, hr] at hstep
      cases hstep
      exact ⟨ns', f', hs', (hkeep i).1.trans hi, (hkeep i).2 h0⟩
  obtain ⟨ns, f, hs, hi, h0⟩ := hinv
  exact (counted_iff (hs.holds hi)).mpr h0

/-- When a copy with the entries of its source is what it is for. -/
theorem copied_iff (ha : Allocates alloc) (hs : Sound hash w ns f) (hij : i ≠ j)
    (hj : (w.map j).isNull = false) {ni : Nat → Nodes κ ν}
    (hs' : Sound hash w' (Function.update ns i ni) (Function.update f i (f j)))
    (hi' : (w'.map i).isNull = false) (hkept : w'.map j = w.map j) :
    Copied hash alloc w w' i j ↔ (w'.map i).drift (f j) = 0 ∧ w.Counted j := by
  have hri := hs'.holds hi'
  have hrj := hs'.holds (hkept ▸ hj)
  have hr := hs.holds hj
  simp only [Function.update_self] at hri
  simp only [Function.update_of_ne hij.symm, hkept] at hrj
  rw [counted_iff hr]
  constructor
  · intro hc
    have h0 := (counted_iff hri).mp (hc.later [] w' .nil)
    refine ⟨h0, ?_⟩
    rw [MapHeader.drift] at h0 ⊢
    rw [← hc.size]
    exact h0
  · rintro ⟨h0, hj0⟩
    have hlists : ∀ es, w.Lists j es → w'.Lists j es := fun es hes => by
      obtain rfl := hes.unique (lists hr)
      rw [← hkept]
      exact lists (hkept.symm ▸ hrj)
    refine ⟨⟨_, _, lists hr, lists hri, ?_⟩, fun key => ?_, ?_, ⟨hkept, hlists⟩, fun key => ?_,
      fun ls w'' hrun => ?_⟩
    · obtain ⟨hnd, hmem, -⟩ := mem_lists hr (lists hr)
      obtain ⟨hnd', hmem', -⟩ := mem_lists hri (lists hri)
      rw [List.perm_ext_iff_of_nodup hnd'.of_map hnd.of_map]
      rintro ⟨k, v⟩
      rw [hmem, hmem']
    · exact (Rep.index hri key).trans (Rep.index hr key).symm
    · rw [MapHeader.drift] at h0 hj0
      grind
    · rw [hkept]
      exact (Rep.index hrj key).trans (Rep.index hr key).symm
    · have h0' : (w'.map i).drift (Function.update f i (f j) i) = 0 := by
        rw [Function.update_self]
        exact h0
      exact counted_of_run ha hs' hi' h0' hrun

/-- **Copies.** A copy has the entries of its source, and leaves the source as it is.
Its length is right only if the target's length was zero before the assignment, or
the memory of a new map's length happens to hold the length of the source. -/
theorem copied_right {ls : List (MapCall ι κ ν)} (ha : Allocates alloc)
    (hrun : Run (Maps.step hash alloc) Legal {} ls w) (hij : i ≠ j)
    (hj : (w.map j).isNull = false) :
    (w.copyAssign hash alloc i j = .error .outOfMemory ∨
      ∃ w', w.copyAssign hash alloc i j = .ok w' ∧
        (Copied hash alloc w w' i j ↔ (w.map i).length_ = 0 ∧ w.Counted j)) ∧
    ∀ word, (w.map i).isNull = true →
      (w.copyConstruct hash alloc i j word = .error .outOfMemory ∨
        ∃ w', w.copyConstruct hash alloc i j word = .ok w' ∧
          (Copied hash alloc w w' i j ↔ word = (w.map j).length_ ∧ w.Counted j)) := by
  obtain ⟨ns, f, hs⟩ := run_sound ha hrun
  constructor
  · rcases hs.copyAssign ha hij hj with hr | ⟨w', hr, ns', hs', hd, hi', hkept⟩
    · exact .inl hr
    · refine .inr ⟨w', hr, ?_⟩
      rw [copied_iff ha hs hij hj hs' hi' (hkept j hij.symm), hd]
  · intro word hi
    rcases hs.copyConstruct ha hi hj word with hr | ⟨w', hr, ns', hs', hlen, hi', hkept⟩
    · exact .inl hr
    · refine .inr ⟨w', hr, ?_⟩
      rw [copied_iff ha hs hij hj hs' hi' (hkept j hij.symm), counted_iff (hs.holds hj),
        MapHeader.drift, MapHeader.drift, hlen]
      grind

/-- The first free entry of eight. -/
def firstFree (h : Slist.Heap (Nat × Nat)) : Option Ptr :=
  (List.range 8).find? fun p => (h p).isNone

theorem firstFree_allocates : Allocates firstFree := by
  intro h p hp
  simpa using List.find?_some hp

/-- A map with two entries, and one without any to assign it to. -/
theorem copied_right_empty : ∃ w : Maps Bool Nat Nat,
    Run (Maps.step (fun k => k) firstFree) Legal {}
      [.shmInit true 2, .change true (.emplace 1 5), .change true (.emplace 3 6),
        .shmInit false 4] w ∧
    ∃ w', w.copyAssign (fun k => k) firstFree false true = .ok w' ∧
      (Copied (fun k => k) firstFree w w' false true ↔ w.Counted true) := by
  have hex : ((execOk (Maps.step (fun k => k) firstFree) Legal ({} : Maps Bool Nat Nat)
      [.shmInit true 2, .change true (.emplace 1 5), .change true (.emplace 3 6),
        .shmInit false 4]).map fun w =>
      ((w.copyAssign (fun k => k) firstFree false true).isOk, (w.map false).length_,
        (w.map true).isNull)) = some (true, 0, false) := by
    decide +kernel
  obtain ⟨w, hw, hres⟩ := Option.map_eq_some_iff.mp hex
  simp only [Prod.mk.injEq] at hres
  obtain ⟨hok, h0, hnull⟩ := hres
  have hrun := run_of_execOk hw
  refine ⟨w, hrun, ?_⟩
  rcases (copied_right firstFree_allocates hrun Bool.false_ne_true hnull).1 with hr | ⟨w', hr, hiff⟩
  · rw [hr] at hok
    cases hok
  · exact ⟨w', hr, by rw [hiff, h0]; simp⟩

/-- Assigned to a map with an entry, a map with one entry says that it has two. -/
theorem assigned_over_entries : ¬ ∀ (ls : List (MapCall Bool Nat Nat)) (w w' : Maps Bool Nat Nat),
    Run (Maps.step (fun k => k) firstFree) Legal {} ls w →
    (w.map true).isNull = false →
    w.copyAssign (fun k => k) firstFree false true = .ok w' →
    Copied (fun k => k) firstFree w w' false true := by
  intro hall
  have hex : ((execOk (Maps.step (fun k => k) firstFree) Legal ({} : Maps Bool Nat Nat)
      [.shmInit true 2, .change true (.emplace 1 5), .shmInit false 2,
        .change false (.emplace 4 7)]).bind fun w =>
      (w.copyAssign (fun k => k) firstFree false true).toOption.map fun w' =>
        ((w.map true).isNull, (w.map true).length_, (w'.map false).length_)) =
      some (false, 1, 2) := by
    decide +kernel
  obtain ⟨w, hw, hres⟩ := Option.bind_eq_some_iff.mp hex
  obtain ⟨w', hw', hres⟩ := Option.map_eq_some_iff.mp hres
  simp only [Prod.mk.injEq] at hres
  obtain ⟨hnull, hsource, htarget⟩ := hres
  have hok : w.copyAssign (fun k => k) firstFree false true = .ok w' := by
    cases hr : w.copyAssign (fun k => k) firstFree false true with
    | error e => rw [hr] at hw'; cases hw'
    | ok w₁ => rw [hr] at hw'; cases hw'; rfl
  have hsize := (hall _ w w' (run_of_execOk hw) hnull hok).size
  rw [hsource, htarget] at hsize
  exact absurd hsize (by decide)

end Maps
end HermesShm.Ipc
