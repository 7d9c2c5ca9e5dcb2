import HermesShm.Ipc.RingLifetime

/-! # A ring queue keeps what it owns -/
namespace HermesShm.Ipc.RingLifetime
open HermesShm.Base HermesShm.Ipc.Lifetime HermesShm.Ipc.VectorLifetime

variable {ε α : Type} {P : Placement} {C : RingClass ε α} {O : Ownership C.T} {l : Heap}
  {q other raw : RingBase ε} {a n depth : Nat} {x : α} {F : Multiset Block}

def RingClass.ownership (C : RingClass ε α) (O : Ownership C.T) : Ownership C.pair :=
  Pair.ownership O C.raw

namespace RingBase

def owns (O : Ownership C.T) (q : RingBase ε) : Multiset Block := q.queue_.owns (C.ownership O)

/-- A queue of depth 0 is empty. -/
structure Ok (O : Ownership C.T) (q : RingBase ε) : Prop where
  queue : q.queue_.Ok (C.ownership O) q.queue_.alloc
  empty : q.queue_.length_ = 0 → q.tail_ = q.head_

theorem pair_pod : ¬ C.pair.pod = true := by simp [RingClass.pair, Pair.elemType]

theorem owns_of_null (hok : q.Ok O) (hn : q.isNull = true) : q.owns O = 0 :=
  hok.queue.owns_of_null (by simpa [isNull, Vec.isNull] using hn)

theorem shmInit_holds (raw : RingBase ε) (depth : Nat) (h : l.Holds F) :
    (shmInit P C l raw a depth).2.Holds ((shmInit P C l raw a depth).1.owns O + F) ∧
      (shmInit P C l raw a depth).1.Ok O := by
  obtain ⟨hl, hok⟩ := Vec.initLength_holds (P := P) (O := C.ownership O) (a := a)
    (n := depth) raw.queue_ (C.ownership O).noArgs_ok h
  exact ⟨hl, ⟨hok.alloc_eq.symm ▸ hok, fun _ => rfl⟩⟩

/-- The vector that is assigned to is one, or blank bytes. -/
theorem strongCopyOp_holds {b : Nat} (hq : q.queue_.Ok (C.ownership O) b) (hother : other.Ok O)
    (h : l.Holds (q.owns O + F)) :
    (strongCopyOp P C l q other).2.Holds ((strongCopyOp P C l q other).1.owns O + F) ∧
      (strongCopyOp P C l q other).1.Ok O := by
  obtain ⟨hl, hok⟩ := Vec.copyAssign_holds (P := P) hq hother.queue h
  refine ⟨hl, ⟨hok.alloc_eq.symm ▸ hok, fun hz => hother.empty ?_⟩⟩
  have hlen := Vec.strongCopyMain_length (P := P) (l := (Vec.shmDestroy C.pair l q.queue_).2)
    (v := (Vec.shmDestroy C.pair l q.queue_).1) other.queue_ (pair_pod (C := C))
  have hz' : (Vec.strongCopyMain P C.pair (Vec.shmDestroy C.pair l q.queue_).2
    (Vec.shmDestroy C.pair l q.queue_).1 other.queue_).1.length_ = 0 := hz
  omega

theorem copyCtor_holds (hraw : raw.queue_.Blank) (hother : other.Ok O) (h : l.Holds F) :
    (copyCtor P C l raw a other).2.Holds ((copyCtor P C l raw a other).1.owns O + F) ∧
      (copyCtor P C l raw a other).1.Ok O := by
  have hnone : owns O ({ raw with alloc := a } : RingBase ε).setNull = 0 := hraw.owns
  exact strongCopyOp_holds (hraw.ok rfl) hother (h.congr (by rw [hnone, zero_add]))

theorem shmDestroy_holds (hok : q.Ok O) (h : l.Holds (q.owns O + F)) :
    (shmDestroy C l q).2.Holds F ∧ (shmDestroy C l q).1.Ok O ∧
      (shmDestroy C l q).1.isNull = true := by
  unfold shmDestroy
  by_cases hn : q.isNull = true
  · rw [if_pos hn]
    rw [owns_of_null hok hn, zero_add] at h
    exact ⟨h, hok, hn⟩
  · rw [if_neg hn]
    obtain ⟨hl, hok', hnull, -⟩ := Vec.shmDestroy_holds hok.queue h
    refine ⟨hl, ⟨hok'.alloc_eq.symm ▸ hok', fun _ => rfl⟩, ?_⟩
    simp only [isNull, Vec.isNull, setNull, hnull, Option.isNone_none]

theorem copyAssign_holds (hok : q.Ok O) (hother : other.Ok O) (h : l.Holds (q.owns O + F)) :
    (copyAssign P C l q other).2.Holds ((copyAssign P C l q other).1.owns O + F) ∧
      (copyAssign P C l q other).1.Ok O := by
  obtain ⟨hl, hok', hnull⟩ := shmDestroy_holds hok h
  exact strongCopyOp_holds hok'.queue hother
    (hl.congr (by rw [owns_of_null hok' hnull, zero_add]))

/-- After a move the target has all that there is, and the other queue is null. -/
structure Moved (O : Ownership C.T) (F : Multiset Block) (r : RingBase ε × RingBase ε × Heap) :
    Prop where
  holds : r.2.2.Holds (r.1.owns O + F)
  ok : r.1.Ok O
  other_ok : r.2.1.Ok O
  other_null : r.2.1.isNull = true

theorem Moved.other_owns {r : RingBase ε × RingBase ε × Heap} (h : Moved O F r) :
    r.2.1.owns O = 0 :=
  owns_of_null h.other_ok h.other_null

theorem moveOp_same_holds {b b' : Nat} (ha : q.alloc = other.alloc) (hother : other.Ok O)
    (hm : Vec.Moved (C.ownership O) b b' F (Vec.moveOp P C.pair l q.queue_ other.queue_))
    (hlen : (Vec.moveOp P C.pair l q.queue_ other.queue_).1.length_ = 0 →
      other.queue_.length_ = 0) : Moved O F (moveOp P C l q other) := by
  unfold moveOp
  rw [if_pos ha]
  refine ⟨hm.holds, ⟨hm.ok.alloc_eq.symm ▸ hm.ok, fun hz => hother.empty (hlen hz)⟩,
    ⟨hm.other_ok.alloc_eq.symm ▸ hm.other_ok, fun _ => rfl⟩, ?_⟩
  simp only [isNull, Vec.isNull, setNull, hm.other_null, Option.isNone_none]

theorem vec_moveOp_length {v w : Vec (Pair ε)} :
    (Vec.moveOp P C.pair l v w).1.length_ = 0 → w.length_ = 0 := by
  unfold Vec.moveOp
  split
  · exact id
  · intro hz
    have := Vec.strongCopyMain_length (P := P) (l := l) (v := v) w (pair_pod (C := C))
    have hz' : (Vec.strongCopyMain P C.pair l v w).1.length_ = 0 := hz
    omega

theorem moveOp_apart_holds {b : Nat} (ha : q.alloc ≠ other.alloc)
    (hq : q.queue_.Ok (C.ownership O) b) (hother : other.Ok O)
    (h : l.Holds (q.owns O + (other.owns O + F))) : Moved O F (moveOp P C l q other) := by
  unfold moveOp
  rw [if_neg ha]
  obtain ⟨hl, hok⟩ := strongCopyOp_holds (P := P) hq hother h
  obtain ⟨hl', hok', hnull⟩ := shmDestroy_holds hother (hl.congr (add_left_comm _ _ _))
  exact ⟨hl', hok, hok', hnull⟩

/-- **Move assignment** onto a queue of the same allocator only where it is null. -/
theorem moveAssign_holds (hok : q.Ok O) (hother : other.Ok O)
    (hg : q.alloc = other.alloc → q.queue_.alloc = other.queue_.alloc → q.isNull = true)
    (hs : q.alloc = other.alloc → q.queue_.alloc ≠ other.queue_.alloc →
      Vec.CopyFits C.pair q.queue_ other.queue_)
    (h : l.Holds (q.owns O + (other.owns O + F))) : Moved O F (moveOp P C l q other) := by
  by_cases ha : q.alloc = other.alloc
  · refine moveOp_same_holds ha hother
      (Vec.moveAssign_holds hok.queue hother.queue (fun hb => ?_) (hs ha) h) vec_moveOp_length
    simpa [isNull, Vec.isNull] using hg ha hb
  · exact moveOp_apart_holds ha hok.queue hother h

/-- A move constructor works on blank bytes, or on bytes that happen to name the
allocator of the other queue. -/
theorem moveCtor_holds (hother : other.Ok O)
    (hg : raw.queue_.Blank ∨ a = other.alloc ∧ raw.queue_.alloc = other.queue_.alloc)
    (h : l.Holds (other.owns O + F)) : Moved O F (moveCtor P C l raw a other) := by
  unfold moveCtor
  by_cases ha : a = other.alloc
  · rcases hg with hg | ⟨-, hb⟩
    · have hm := Vec.moveAssign_holds (P := P) (hg.ok (O := C.ownership O) rfl) hother.queue
        (fun _ => hg.1) (fun _ => .inr (.inl hg.2.2)) (h.congr (by rw [hg.owns, zero_add]; rfl))
      exact moveOp_same_holds ha hother hm vec_moveOp_length
    · have hm := Vec.moveOp_same_holds (P := P) rfl hb hother.queue h
      exact moveOp_same_holds ha hother hm vec_moveOp_length
  · have hraw := hg.resolve_right fun hb => ha hb.1
    refine moveOp_apart_holds ha (hraw.ok rfl) hother (h.congr ?_)
    rw [show owns O ({ raw with alloc := a } : RingBase ε) = 0 from hraw.owns, zero_add]

/-! ## Push and pop -/

/-- A mark belongs to nobody. -/
theorem setFirst_owns (idx : Nat) {b : Bool} : (q.setFirst idx b).owns O = q.owns O := by
  unfold owns Vec.owns
  congr 1
  refine Finset.sum_congr rfl fun i _ => ?_
  show (C.ownership O).owns (Function.update q.queue_.slots idx _ i) = _
  by_cases hi : i = idx
  · subst hi
    rw [Function.update_self]
    rfl
  · rw [Function.update_of_ne hi]

theorem setFirst_queue {idx : Nat} {b : Bool} (hok : q.queue_.Ok (C.ownership O) a) :
    (q.setFirst idx b).queue_.Ok (C.ownership O) a := by
  refine ⟨hok.alloc_eq, hok.null, hok.length_le, fun i hi => ?_⟩
  have hel := hok.elems i hi
  show (C.ownership O).Ok a (Function.update q.queue_.slots idx _ i)
  by_cases hx : i = idx
  · subst hx
    rw [Function.update_self]
    exact hel
  · rw [Function.update_of_ne hx]
    exact hel

theorem replace_length {T : ElemType ε α} {v : Vec ε} {pos : Nat} {x : Args ε α} :
    (Vec.replace T l v pos x).1.length_ = v.length_ := by
  unfold Vec.replace
  split <;> rfl

theorem store_holds {tail : Nat} {y : Args ε α} {r : RingBase ε × Heap} (hy : O.MakeOk y)
    (hq : q.queue_.Ok (C.ownership O) q.queue_.alloc) (h : l.Holds (q.owns O + F))
    (hr : store C l q tail y = some r) : r.2.Holds (r.1.owns O + F) ∧ r.1.Ok O := by
  unfold store at hr
  by_cases h0 : q.queue_.length_ = 0
  · rw [if_pos h0] at hr
    cases hr
  · rw [if_neg h0] at hr
    cases hr
    obtain ⟨hl, hok⟩ := Vec.replace_holds (T := C.pair) (O := C.ownership O)
      (q.emplaceIdx tail) (x := .args (.piecewise y)) hy hq h
    have hown := setFirst_owns (O := O) (q.emplaceIdx tail) (b := true)
      (q := { q with queue_ := (Vec.replace C.pair l q.queue_ (q.emplaceIdx tail)
        (.args (.piecewise y))).1 })
    refine ⟨hl.congr (congrArg (· + F) hown.symm), ⟨?_, fun hz => ?_⟩⟩
    · exact setFirst_queue (hok.alloc_eq.symm ▸ hok)
    · refine absurd ?_ h0
      rw [← replace_length (T := C.pair) (l := l) (v := q.queue_)]
      exact hz

theorem pop_holds {r : Bool × RingBase ε} (hok : q.Ok O) (h : l.Holds (q.owns O + F))
    (hr : q.pop = some r) : l.Holds (r.2.owns O + F) ∧ r.2.Ok O := by
  unfold pop at hr
  split at hr
  · cases hr
    exact ⟨h, hok⟩
  · split at hr
    · cases hr
    · rename_i h0
      dsimp only at hr
      split at hr
      · cases hr
        refine ⟨h.congr (congrArg (· + F) (setFirst_owns _).symm), ⟨setFirst_queue hok.queue, ?_⟩⟩
        intro hz
        exact absurd hz h0
      · cases hr
        exact ⟨h, hok⟩

/-- There is no space, so that a queue of dynamic size is resized. -/
def Full (q : RingBase ε) : Prop := q.tail_ - q.head_ + 1 > q.queue_.length_

instance (q : RingBase ε) : Decidable q.Full := inferInstanceAs (Decidable (_ > _))

theorem popInto_null {val : ε} (h0 : q.queue_.length_ = 0) (hlt : q.head_ < q.tail_) :
    popInto C l q val = none := by
  unfold popInto
  rw [if_neg (by omega), if_pos h0]

/-- A queue of depth 0 with a ticket handed out cannot be resized. -/
theorem resizeWith_null {push : Heap → RingBase ε → ε → Option (RingBase ε × Heap)}
    (h0 : q.queue_.length_ = 0) (hlt : q.head_ < q.tail_) :
    resizeWith P C push l q depth = none := by
  obtain ⟨k, hk⟩ := Nat.exists_eq_succ_of_ne_zero (show q.tail_ - q.head_ ≠ 0 by omega)
  simp only [resizeWith, hk, Nat.succ_eq_add_one, drain, popInto_null h0 hlt, Option.bind_none,
    Option.map_none]

theorem emplaceWith_holds {resize : Heap → RingBase ε → Nat → Option (RingBase ε × Heap)}
    {y : Args ε α} {r : RingBase ε × Heap} (hy : O.MakeOk y) (hok : q.Ok O)
    (hg : C.space = .dynamicSize → q.Full →
      ∀ depth, resize l { q with tail_ := q.tail_ + 1 } depth = none)
    (h : l.Holds (q.owns O + F)) (hr : emplaceWith C resize l q y = some r) :
    r.2.Holds (r.1.owns O + F) ∧ r.1.Ok O := by
  have hstore : store C l { q with tail_ := q.tail_ + 1 } q.tail_ y = some r →
      r.2.Holds (r.1.owns O + F) ∧ r.1.Ok O := fun hs =>
    store_holds (q := { q with tail_ := q.tail_ + 1 }) hy hok.queue h hs
  unfold emplaceWith at hr
  cases hc : C.space with
  | waitForSpace =>
    simp only [hc] at hr
    split at hr
    · cases hr
    · exact hstore hr
  | errorOnNoSpace =>
    simp only [hc] at hr
    split at hr
    · cases hr
      exact ⟨h, hok⟩
    · exact hstore hr
  | dynamicSize =>
    simp only [hc] at hr
    split at hr
    · rename_i hfull
      rw [hg hc hfull] at hr
      cases hr
    · exact hstore hr
  | circular =>
    simp only [hc] at hr
    exact hstore hr

/-- **Push**, where no queue of dynamic size is full. -/
theorem emplace_holds {y : Args ε α} {r : RingBase ε × Heap} (hy : O.MakeOk y) (hok : q.Ok O)
    (hg : C.space = .dynamicSize → q.Full → q.isNull = true) (h : l.Holds (q.owns O + F))
    (hr : emplace P C n l q y = some r) : r.2.Holds (r.1.owns O + F) ∧ r.1.Ok O := by
  have hnull : C.space = .dynamicSize → q.Full → q.queue_.length_ = 0 := fun hc hf =>
    hok.queue.length_of_null (by simpa [isNull, Vec.isNull] using hg hc hf)
  cases n with
  | zero => exact emplaceWith_holds hy hok (fun _ _ _ => rfl) h hr
  | succ n =>
    refine emplaceWith_holds hy hok (fun hc hf depth => ?_) h hr
    have h0 := hnull hc hf
    have := hok.empty h0
    refine resizeWith_null h0 ?_
    show q.head_ < q.tail_ + 1
    omega

/-- **Resize** of a queue that is null; every other queue leaks its vector. -/
theorem resize_holds {r : RingBase ε × Heap} (hok : q.Ok O) (hn : q.isNull = true)
    (h : l.Holds (q.owns O + F)) (hr : resize P C n l q depth = some r) :
    r.2.Holds (r.1.owns O + F) ∧ r.1.Ok O := by
  have h0 : q.queue_.length_ = 0 :=
    hok.queue.length_of_null (by simpa [isNull, Vec.isNull] using hn)
  have hz : q.tail_ - q.head_ = 0 := by
    have := hok.empty h0
    omega
  simp only [resize, resizeWith, hz, drain, Option.map_some, Option.some.injEq] at hr
  subst hr
  obtain ⟨hnew, hoknew⟩ := shmInit_holds (P := P) (a := q.alloc) q depth h
  generalize shmInit P C l q q.alloc depth = new_queue at *
  obtain ⟨hval, hvok⟩ := O.construct_holds _ C.default_alloc _ _ O.noArgs_ok hnew
  generalize C.T.construct new_queue.2 C.default_alloc C.T.noArgs = val at *
  have hm := moveAssign_holds (P := P) (F := O.owns val.1 + F) hok hoknew (fun _ _ => hn)
    (fun _ _ => .inr (.inl h0))
    (hval.congr (by abel))
  have hd := O.destroy_holds _ _ _ _ hvok (hm.holds.congr (add_left_comm _ _ _))
  have hs := shmDestroy_holds hm.other_ok (hd.congr (by rw [hm.other_owns, zero_add]))
  exact ⟨hs.1, hm.ok⟩

end RingBase

end HermesShm.Ipc.RingLifetime
