import HermesShm.Memory.InProcessView

/-! # Blocks over the runs of processes

A block that the calls of a run leave alone is in use with its bytes at the end, for any
allocator whose calls have the effect of `Effect`. -/
namespace HermesShm.Memory.InProcess
open HermesShm.Base MpPage

variable {ι Tab Obj : Type}

/-- The step does not end the block, nor store to its byte at `x`. -/
def Leaves (b : Block) (x : Nat) : Label ι Op → Prop
  | .attach _ => True
  | .call _ c => ¬ Ends c b ∧ ¬ Writes c x

instance (c : Op) (b : Block) : Decidable (Ends c b) :=
  match c with
  | .allocate _ | .write _ _ => .isFalse (fun h => h)
  | .free p | .reallocate p _ => inferInstanceAs (Decidable (p = b.off))

instance (c : Op) (x : Nat) : Decidable (Writes c x) :=
  match c with
  | .allocate _ | .free _ | .reallocate _ _ => .isFalse (fun h => h)
  | .write y _ => inferInstanceAs (Decidable (y = x))

instance (b : Block) (x : Nat) (l : Label ι Op) : Decidable (Leaves b x l) :=
  match l with
  | .attach _ => .isTrue trivial
  | .call _ c => inferInstanceAs (Decidable (¬ Ends c b ∧ ¬ Writes c x))

section

variable [DecidableEq ι] {P : Program Tab Obj Op Out (List Block)} {Valid : Nat → Prop}
  {At : Nat → Tab → Obj → Prop} {Good : ByteMem → List Block → Prop}
  {ok : ByteMem → List Block → Op → Prop} {t u v : System ι Tab Obj Out (List Block)}
  {bs : List (Label ι Op)} {b : Block} {k : ι} {x : Nat} {byte : UInt8}

/-- The byte of a block in use. -/
structure HasByte (b : Block) (x : Nat) (byte : UInt8) (t : System ι Tab Obj Out (List Block)) :
    Prop where
  live : b ∈ t.ghost
  lo : b.off ≤ x
  hi : x < b.off + capacity t.shared b.off
  byte : t.shared x = byte

/-- A step that leaves the byte. -/
theorem HasByte.step (hrec : P.record = record)
    (h : Independent P Valid At Good ok Effect) (hsound : Independent.Sound Valid At t)
    (hg : Good t.shared t.ghost) {l : Label ι Op} (hok : Program.Ok ok t l) (hl : Leaves b x l)
    (hb : HasByte b x byte t) (hu : P.step t l = some u) : HasByte b x byte u := by
  cases l with
  | attach i =>
    obtain ⟨-, hσ, hgh, -⟩ := h.step_attach hsound hg hu
    exact ⟨hgh ▸ hb.live, hb.lo, hσ ▸ hb.hi, hσ ▸ hb.byte⟩
  | call i c =>
    obtain ⟨o, σ', heff, -, hstep, -⟩ := h.step_call hsound hg hok
    obtain ⟨-, hσ, hgh, -⟩ := hstep i u hu
    obtain ⟨hmem, hcap, hkeep⟩ := heff.keeps b hb.live hl.1
    rw [hrec] at hgh
    refine ⟨hgh ▸ hmem, hb.lo, ?_, ?_⟩
    · rw [hσ, hcap]
      exact hb.hi
    · rw [hσ, hkeep x hb.lo hb.hi hl.2]
      exact hb.byte

/-- The store of a byte, and a run that leaves it. -/
theorem hasByte_run (hrec : P.record = record) (h : Independent P Valid At Good ok Effect)
    (hsound : Independent.Sound Valid At t) (hg : Good t.shared t.ghost)
    (hok : ok t.shared t.ghost (.write x byte)) (hb : b ∈ t.ghost) (hx : b.off ≤ x)
    (hx' : x < b.off + capacity t.shared b.off) (hw : P.step t (.call k (.write x byte)) = some u)
    (hr : Run P.step (fun s l => Program.Ok ok s l ∧ Leaves b x l) u bs v) :
    Independent.Sound Valid At v ∧ Good v.shared v.ghost ∧ HasByte b x byte v := by
  obtain ⟨o, σ', heff, hg', hstep, -⟩ := h.step_call hsound hg hok
  obtain ⟨hsoundu, hσ, hgh, -⟩ := hstep k u hw
  obtain ⟨hmem, hcap, -⟩ := heff.keeps b hb fun he => he
  have hgu : Good u.shared u.ghost := by
    rw [hσ, hgh]
    exact hg'
  have hbu : HasByte b x byte u := by
    rw [hrec] at hgh
    refine ⟨hgh ▸ hmem, hx, ?_, hσ ▸ heff.writes x byte rfl⟩
    rw [hσ, hcap]
    exact hx'
  -- from the store on by induction over the rest of the run
  refine hr.invariant (I := fun v => Independent.Sound Valid At v ∧ Good v.shared v.ghost ∧
    HasByte b x byte v) ⟨hsoundu, hgu, hbu⟩ ?_
  intro t l u ht hl hu
  obtain ⟨hsound, hg, hb⟩ := ht
  obtain ⟨hsound', hg'⟩ := h.run_sound hsound hg (.cons hl.1 hu .nil)
  exact ⟨hsound', hg', hb.step hrec h hsound hg hl.1 hl.2 hu⟩

end

end HermesShm.Memory.InProcess
