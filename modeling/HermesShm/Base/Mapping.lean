import HermesShm.Base.ByteMem
import HermesShm.Base.Transition
import Mathlib.Logic.Function.Basic

/-! # A buffer shared by processes

Each process maps the buffer at a base of its own, among memory that is its own. A
program that works on addresses is position independent if all processes compute the
same of the same bytes of the buffer; then it does not matter which process does what. -/
namespace HermesShm.Base

namespace ByteMem

variable {m : ByteMem} {a b n k v : Nat}

theorem load_store_apart (h : b + k ≤ a ∨ a + n ≤ b) : (m.store a n v).load b k = m.load b k :=
  load_congr ((m.store_sameOff a n v).sameOn (by omega))

theorem load_div (h : k ≤ n) : m.load a n / 256 ^ k = m.load (a + k) (n - k) := by
  induction k generalizing a n with
  | zero => rw [Nat.pow_zero, Nat.div_one, Nat.add_zero, Nat.sub_zero]
  | succ k ih =>
    obtain ⟨n, rfl⟩ : ∃ j, n = j + 1 := ⟨n - 1, by omega⟩
    have hlt := (m a).toNat_lt
    have hhead : ((m a).toNat + 256 * m.load (a + 1) n) / 256 = m.load (a + 1) n := by omega
    rw [load, Nat.pow_succ', ← Nat.div_div_eq_div_mul, hhead, ih (by omega),
      Nat.add_sub_add_right, Nat.add_assoc, Nat.add_comm 1]

/-- Storing what is there changes nothing. -/
theorem store_load (m : ByteMem) (a n : Nat) : m.store a n (m.load a n) = m := by
  funext x
  by_cases hx : a ≤ x ∧ x < a + n
  · obtain ⟨j, hj⟩ : ∃ j, n - (x - a) = j + 1 := ⟨n - (x - a) - 1, by omega⟩
    rw [store, if_pos hx, load_div (by omega), Nat.add_sub_cancel' hx.1, hj, load]
    have hlt := (m x).toNat_lt
    apply UInt8.toNat_inj.mp
    rw [UInt8.toNat_ofNat']
    omega
  · exact if_neg hx

end ByteMem

/-- Where a process has the buffer, and its other memory. -/
structure Mapping where
  base : Nat
  other : ByteMem

namespace Mapping

/-- The address space of a process, for a buffer of `size` bytes. -/
def view (size : Nat) (σ : ByteMem) (p : Mapping) : ByteMem := fun a =>
  if p.base ≤ a ∧ a < p.base + size then σ (a - p.base) else p.other a

/-- The buffer, after a process has left `m` in its address space. -/
def shared (size : Nat) (σ : ByteMem) (p : Mapping) (m : ByteMem) : ByteMem := fun x =>
  if x < size then m (p.base + x) else σ x

/-- The memory of the process, after it has left `m` in its address space. -/
def leave (size : Nat) (p : Mapping) (m : ByteMem) : Mapping :=
  { p with other := fun a => if p.base ≤ a ∧ a < p.base + size then p.other a else m a }

variable {size : Nat} {σ σ' : ByteMem} {p p' : Mapping} {x n v dst src : Nat}

@[simp] theorem leave_base (m : ByteMem) : (p.leave size m).base = p.base := rfl

theorem view_apply (hx : x < size) : p.view size σ (p.base + x) = σ x := by
  rw [view, if_pos (by omega), Nat.add_sub_cancel_left]

theorem view_outside {a : Nat} (h : a < p.base ∨ p.base + size ≤ a) :
    p.view size σ a = p.other a := if_neg (by omega)

theorem load_view (h : x + n ≤ size) : (p.view size σ).load (p.base + x) n = σ.load x n := by
  induction n generalizing x with
  | zero => rfl
  | succ n ih =>
    rw [ByteMem.load, ByteMem.load, view_apply (by omega), Nat.add_assoc, ih (by omega)]

/-- A change of bytes of the buffer is one of the address space, and no other. -/
theorem view_eq {m : ByteMem} (hin : ∀ x, x < size → m (p.base + x) = σ' x)
    (hout : ∀ a, a < p.base ∨ p.base + size ≤ a → m a = p.other a) : m = p.view size σ' := by
  funext a
  by_cases ha : p.base ≤ a ∧ a < p.base + size
  · rw [view, if_pos ha, ← hin (a - p.base) (by omega), Nat.add_sub_cancel' ha.1]
  · rw [hout a (by omega), view_outside (by omega)]

theorem store_view (h : x + n ≤ size) :
    (p.view size σ).store (p.base + x) n v = p.view size (σ.store x n v) := by
  refine view_eq (fun y hy => ?_) fun a ha => ?_
  · by_cases hxy : x ≤ y ∧ y < x + n
    · rw [ByteMem.store, if_pos (by omega), ByteMem.store, if_pos hxy, Nat.add_sub_add_left]
    · rw [ByteMem.store, if_neg (by omega), ByteMem.store, if_neg hxy, view_apply hy]
  · rw [ByteMem.store, if_neg (by omega), view_outside ha]

theorem update_view (b : UInt8) (h : x < size) :
    Function.update (p.view size σ) (p.base + x) b = p.view size (Function.update σ x b) := by
  refine view_eq (fun y hy => ?_) fun a ha => ?_
  · by_cases hxy : y = x
    · rw [hxy, Function.update_self, Function.update_self]
    · rw [Function.update_of_ne (by omega), Function.update_of_ne hxy, view_apply hy]
  · rw [Function.update_of_ne (by omega), view_outside ha]

theorem copy_view (hd : dst + n ≤ size) (hs : src + n ≤ size) :
    (p.view size σ).copy (p.base + dst) (p.base + src) n = p.view size (σ.copy dst src n) := by
  refine view_eq (fun y hy => ?_) fun a ha => ?_
  · by_cases hy' : dst ≤ y ∧ y < dst + n
    · rw [ByteMem.copy, if_pos (by omega), ByteMem.copy, if_pos hy', Nat.add_sub_add_left,
        Nat.add_assoc, view_apply (by omega)]
    · rw [ByteMem.copy, if_neg (by omega), ByteMem.copy, if_neg hy', view_apply hy]
  · rw [ByteMem.copy, if_neg (by omega), view_outside ha]

/-- The bytes of the buffer that a copy reaches; the end of it may be outside. -/
def copyIn (size : Nat) (σ : ByteMem) (dst src n : Nat) : ByteMem := fun x =>
  if x < size then σ.copy dst src n x else σ x

/-- A copy from the buffer may go past its end, into memory of the process. -/
theorem copy_view_over (hs : src + n ≤ size) :
    (p.view size σ).copy (p.base + dst) (p.base + src) n =
      (p.leave size ((p.view size σ).copy (p.base + dst) (p.base + src) n)).view size
        (copyIn size σ dst src n) := by
  refine view_eq (fun y hy => ?_) fun a ha => (if_neg (by simp only [leave_base] at ha; omega)).symm
  rw [leave_base, copyIn, if_pos hy]
  by_cases hy' : dst ≤ y ∧ y < dst + n
  · rw [ByteMem.copy, if_pos (by omega), ByteMem.copy, if_pos hy', Nat.add_sub_add_left,
      Nat.add_assoc, view_apply (by omega)]
  · rw [ByteMem.copy, if_neg (by omega), ByteMem.copy, if_neg hy', view_apply hy]

theorem shared_view (hb : p'.base = p.base) (hσ : ∀ x, size ≤ x → σ' x = σ x) :
    p.shared size σ (p'.view size σ') = σ' := by
  funext x
  by_cases hx : x < size
  · rw [shared, if_pos hx, ← hb, view_apply hx]
  · rw [shared, if_neg hx, hσ x (by omega)]

end Mapping

/-! ## Processes over one buffer -/

variable {ι Tab Obj Call Out G : Type}

/-- A process: its memory, its table, and the object it works with once attached. -/
structure Process (Tab Obj : Type) where
  map : Mapping
  tab : Tab
  obj : Option Obj := none

/-- `ghost` is kept by the observer; no process reads it. -/
structure System (ι Tab Obj Out G : Type) where
  shared : ByteMem
  procs : ι → Process Tab Obj
  out : List Out := []
  ghost : G

/-- A program of a process that has the buffer at a base; its calls work on addresses. -/
structure Program (Tab Obj Call Out G : Type) where
  size : Nat
  init : Nat → Tab → ByteMem → Option (Obj × Tab × ByteMem)
  attach : Nat → Tab → ByteMem → Option (Obj × Tab)
  call : Tab → Obj → ByteMem → Call → Option (Out × ByteMem)
  record : G → Call → Out → G

inductive Label (ι Call : Type)
  | attach (i : ι)
  | call (i : ι) (c : Call)

/-- What a run without attaching does in the place of a step. -/
def Label.single : Label ι Call → Option (Label Unit Call)
  | .attach _ => none
  | .call _ c => some (.call () c)

namespace Program

variable [DecidableEq ι] (P : Program Tab Obj Call Out G)

/-- Process `i` initializes the buffer. -/
def start (σ : ByteMem) (procs : ι → Process Tab Obj) (ghost : G) (i : ι) :
    Option (System ι Tab Obj Out G) := do
  let p := procs i
  let (obj, tab, m) ← P.init p.map.base p.tab (p.map.view P.size σ)
  some { shared := p.map.shared P.size σ m, ghost
         procs := Function.update procs i { map := p.map.leave P.size m, tab, obj := some obj } }

def step (s : System ι Tab Obj Out G) : Label ι Call → Option (System ι Tab Obj Out G)
  | .attach i => do
    let p := s.procs i
    let (obj, tab) ← P.attach p.map.base p.tab (p.map.view P.size s.shared)
    some { s with procs := Function.update s.procs i { p with tab, obj := some obj } }
  | .call i c => do
    let p := s.procs i
    let obj ← p.obj
    let (o, m) ← P.call p.tab obj (p.map.view P.size s.shared) c
    let shared := p.map.shared P.size s.shared m
    some { shared, out := s.out ++ [o], ghost := P.record s.ghost c o
           procs := Function.update s.procs i { p with map := p.map.leave P.size m } }

/-- A call that changes the bytes of the buffer to `σ'`. -/
theorem step_call_eq {s : System ι Tab Obj Out G} {i : ι} {c : Call} {obj : Obj} {o : Out}
    {p' : Mapping} {σ' : ByteMem} (hobj : (s.procs i).obj = some obj)
    (he : P.call (s.procs i).tab obj ((s.procs i).map.view P.size s.shared) c =
      some (o, p'.view P.size σ'))
    (hp' : p'.base = (s.procs i).map.base) (hσ : ∀ x, P.size ≤ x → σ' x = s.shared x) :
    P.step s (.call i c) = some
      { shared := σ', out := s.out ++ [o], ghost := P.record s.ghost c o
        procs := Function.update s.procs i { s.procs i with
          map := (s.procs i).map.leave P.size (p'.view P.size σ') } } := by
  have hsh := Mapping.shared_view hp' hσ
  simp only [step, hobj, he, hsh, Option.bind_eq_bind, Option.bind_some]

/-- Calls are made where `ok` allows it, and processes attach at any time. -/
def Ok (ok : ByteMem → G → Call → Prop) (s : System ι Tab Obj Out G) : Label ι Call → Prop
  | .attach _ => True
  | .call _ c => ok s.shared s.ghost c

end Program

/-- **Position independence.** Under `Good`, what is attached to the buffer is the same
but for the base, and an allowed call gives one result and one effect on the buffer in
all processes; `Effect` tells more of that effect. -/
structure Independent (P : Program Tab Obj Call Out G) (Valid : Nat → Prop)
    (At : Nat → Tab → Obj → Prop) (Good : ByteMem → G → Prop)
    (ok : ByteMem → G → Call → Prop) (Effect : ByteMem → G → Call → Out → ByteMem → Prop) :
    Prop where
  attach : ∀ σ g, Good σ g → ∀ (p : Mapping) tab, Valid p.base →
    ∃ obj tab', P.attach p.base tab (p.view P.size σ) = some (obj, tab') ∧ At p.base tab' obj
  call : ∀ σ g c, Good σ g → ok σ g c → ∃ o σ', Good σ' (P.record g c o) ∧ Effect σ g c o σ' ∧
    (∀ x, P.size ≤ x → σ' x = σ x) ∧
    ∀ (p : Mapping) tab obj, Valid p.base → At p.base tab obj →
      ∃ p' : Mapping, p'.base = p.base ∧
        P.call tab obj (p.view P.size σ) c = some (o, p'.view P.size σ')

namespace Independent

variable [DecidableEq ι] {P : Program Tab Obj Call Out G} {Valid : Nat → Prop}
  {At : Nat → Tab → Obj → Prop} {Good : ByteMem → G → Prop} {ok : ByteMem → G → Call → Prop}
  {Effect : ByteMem → G → Call → Out → ByteMem → Prop} {s t : System ι Tab Obj Out G}
  {s' : System Unit Tab Obj Out G} {as : List (Label ι Call)}

/-- Processes have the buffer at valid bases, and those that are attached are so rightly. -/
def Sound (Valid : Nat → Prop) (At : Nat → Tab → Obj → Prop) (s : System ι Tab Obj Out G) : Prop :=
  ∀ i, Valid (s.procs i).map.base ∧
    ∀ obj, (s.procs i).obj = some obj → At (s.procs i).map.base (s.procs i).tab obj

theorem Sound.update {i : ι} {q : Process Tab Obj} {σ : ByteMem} {out : List Out} {g : G}
    (h : Sound Valid At s) (hb : q.map.base = (s.procs i).map.base)
    (hq : ∀ obj, q.obj = some obj → At q.map.base q.tab obj) :
    Sound Valid At { shared := σ, procs := Function.update s.procs i q, out, ghost := g } := by
  intro j
  by_cases hj : j = i
  · subst hj
    simp only [Function.update_self]
    exact ⟨hb ▸ (h j).1, hq⟩
  · simp only [Function.update_of_ne hj]
    exact h j

theorem step_attach (h : Independent P Valid At Good ok Effect) (hs : Sound Valid At s)
    (hg : Good s.shared s.ghost) {i : ι} (ht : P.step s (.attach i) = some t) :
    Sound Valid At t ∧ t.shared = s.shared ∧ t.ghost = s.ghost ∧ t.out = s.out := by
  obtain ⟨obj, tab, he, hat⟩ := h.attach _ _ hg (s.procs i).map (s.procs i).tab (hs i).1
  simp only [Program.step, he, Option.bind_eq_bind, Option.bind_some, Option.some.injEq] at ht
  subst ht
  refine ⟨hs.update rfl fun o ho => ?_, rfl, rfl, rfl⟩
  cases ho
  exact hat

/-- A call of one process, and the same call of any other. -/
theorem step_call (h : Independent P Valid At Good ok Effect) (hs : Sound Valid At s)
    (hg : Good s.shared s.ghost) {c : Call} (hok : ok s.shared s.ghost c) :
    ∃ o σ', Effect s.shared s.ghost c o σ' ∧ Good σ' (P.record s.ghost c o) ∧
      (∀ i t, P.step s (.call i c) = some t → Sound Valid At t ∧ t.shared = σ' ∧
        t.ghost = P.record s.ghost c o ∧ t.out = s.out ++ [o]) ∧
      ∀ s' : System Unit Tab Obj Out G, Sound Valid At s' → (s'.procs ()).obj.isSome →
        s'.shared = s.shared → s'.ghost = s.ghost →
        ∃ t', P.step s' (.call () c) = some t' ∧ Sound Valid At t' ∧ (t'.procs ()).obj.isSome ∧
          t'.shared = σ' ∧ t'.ghost = P.record s.ghost c o ∧ t'.out = s'.out ++ [o] := by
  obtain ⟨o, σ', hg', heff, hσ, hcall⟩ := h.call _ _ c hg hok
  refine ⟨o, σ', heff, hg', fun i t ht => ?_, fun s' hs' hat hsh hgh => ?_⟩
  · obtain ⟨obj, hobj, -⟩ := Option.bind_eq_some_iff.mp ht
    obtain ⟨p', hp', he⟩ := hcall (s.procs i).map (s.procs i).tab obj (hs i).1 ((hs i).2 obj hobj)
    rw [P.step_call_eq hobj he hp' hσ] at ht
    cases ht
    exact ⟨hs.update rfl fun obj' ho => (hs i).2 obj' ho, rfl, rfl, rfl⟩
  · obtain ⟨obj, hobj⟩ := Option.isSome_iff_exists.mp hat
    obtain ⟨p', hp', he⟩ := hcall (s'.procs ()).map (s'.procs ()).tab obj (hs' ()).1
      ((hs' ()).2 obj hobj)
    rw [← hsh] at he hσ
    refine ⟨_, P.step_call_eq hobj he hp' hσ, hs'.update rfl fun obj' ho => (hs' ()).2 obj' ho,
      ?_, rfl, by rw [hgh], rfl⟩
    simp only [Function.update_self, hobj, Option.isSome_some]

/-- What holds in every state of a run. -/
theorem run_sound (h : Independent P Valid At Good ok Effect) (hs : Sound Valid At s)
    (hg : Good s.shared s.ghost) (hr : Run P.step (Program.Ok ok) s as t) :
    Sound Valid At t ∧ Good t.shared t.ghost := by
  refine hr.invariant (I := fun t => Sound Valid At t ∧ Good t.shared t.ghost) ⟨hs, hg⟩ ?_
  intro t l u ⟨hs, hg⟩ hok hu
  cases l with
  | attach i =>
    obtain ⟨hu', hσ, hgh, -⟩ := h.step_attach hs hg hu
    rw [hσ, hgh]
    exact ⟨hu', hg⟩
  | call i c =>
    obtain ⟨o, σ', -, hg', hstep, -⟩ := h.step_call hs hg hok
    obtain ⟨hu', hσ, hgh, -⟩ := hstep i u hu
    rw [hσ, hgh]
    exact ⟨hu', hg'⟩

/-- **One process can do it all.** The calls of a run, made by one process in the same
order, give the same results and the same buffer. -/
theorem run_single (h : Independent P Valid At Good ok Effect) (hs : Sound Valid At s)
    (hg : Good s.shared s.ghost) (hr : Run P.step (Program.Ok ok) s as t)
    (hs' : Sound Valid At s') (hat : (s'.procs ()).obj.isSome) (hσ : s'.shared = s.shared)
    (hgh : s'.ghost = s.ghost) (hout : s'.out = s.out) :
    ∃ t', exec P.step s' (as.filterMap Label.single) = some t' ∧ Sound Valid At t' ∧
      (t'.procs ()).obj.isSome ∧ t'.shared = t.shared ∧ t'.ghost = t.ghost ∧ t'.out = t.out := by
  induction hr with
  | nil => exact ⟨s', rfl, hs', hat, hσ, hgh, hout⟩
  | @snoc as t l u hr hok hu ih =>
    obtain ⟨t', he, ht', hat', hσ', hgh', hout'⟩ := ih
    obtain ⟨hst, hgt⟩ := h.run_sound hs hg hr
    rw [List.filterMap_append, exec_append, he, Option.bind_some]
    cases l with
    | attach i =>
      obtain ⟨-, hσu, hghu, houtu⟩ := h.step_attach hst hgt hu
      exact ⟨t', rfl, ht', hat', hσ'.trans hσu.symm, hgh'.trans hghu.symm, hout'.trans houtu.symm⟩
    | call i c =>
      obtain ⟨o, σ', -, -, hstep, hone⟩ := h.step_call hst hgt hok
      obtain ⟨-, hσu, hghu, houtu⟩ := hstep i u hu
      obtain ⟨u', hu', hsu', hatu', hσu', hghu', houtu'⟩ := hone t' ht' hat' hσ' hgh'
      refine ⟨u', ?_, hsu', hatu', hσu'.trans hσu.symm, hghu'.trans hghu.symm, ?_⟩
      · simp only [List.filterMap_cons, Label.single, List.filterMap_nil, exec, hu',
          Option.bind_some]
      · rw [houtu', houtu, hout']

end Independent

/-! ## Runs from the start -/

/-- The buffer is at a valid base everywhere, and attached nowhere. -/
def Unattached (Valid : Nat → Prop) (procs : ι → Process Tab Obj) : Prop :=
  ∀ i, Valid (procs i).map.base ∧ (procs i).obj = none

/-- Whoever initializes the buffer leaves the same bytes there. -/
structure Starts (P : Program Tab Obj Call Out G) (Valid : Nat → Prop)
    (At : Nat → Tab → Obj → Prop) (Good : ByteMem → G → Prop) (g₀ : G) (σ σ' : ByteMem) :
    Prop where
  good : Good σ' g₀
  outside : ∀ x, P.size ≤ x → σ' x = σ x
  init : ∀ (p : Mapping) tab, Valid p.base → ∃ obj tab',
    P.init p.base tab (p.view P.size σ) = some (obj, tab', p.view P.size σ') ∧ At p.base tab' obj

variable [DecidableEq ι] {P : Program Tab Obj Call Out G} {Valid : Nat → Prop}
  {At : Nat → Tab → Obj → Prop} {Good : ByteMem → G → Prop} {ok : ByteMem → G → Call → Prop}
  {Effect : ByteMem → G → Call → Out → ByteMem → Prop} {g₀ : G} {σ σ' : ByteMem}
  {procs : ι → Process Tab Obj} {i : ι} {s t : System ι Tab Obj Out G} {as : List (Label ι Call)}

theorem Starts.start (h : Starts P Valid At Good g₀ σ σ') (hun : Unattached Valid procs) (i : ι) :
    ∃ s, P.start σ procs g₀ i = some s ∧ Independent.Sound Valid At s ∧
      (s.procs i).obj.isSome ∧ s.shared = σ' ∧ s.ghost = g₀ ∧ s.out = [] := by
  obtain ⟨obj, tab', he, hat⟩ := h.init (procs i).map (procs i).tab (hun i).1
  refine ⟨{ shared := σ', ghost := g₀
            procs := Function.update procs i
              { map := (procs i).map.leave P.size ((procs i).map.view P.size σ'), tab := tab'
                obj := some obj } }, ?_, fun j => ?_, ?_, rfl, rfl, rfl⟩
  · have hsh := Mapping.shared_view (p := (procs i).map) rfl h.outside
    simp only [Program.start, he, Option.bind_eq_bind, Option.bind_some, hsh]
  · obtain rfl | hj := eq_or_ne j i
    · simp only [Function.update_self]
      refine ⟨(hun j).1, fun a ha => ?_⟩
      cases ha
      exact hat
    · simp only [Function.update_of_ne hj]
      refine ⟨(hun j).1, fun a ha => ?_⟩
      rw [(hun j).2] at ha
      cases ha
  · simp only [Function.update_self, Option.isSome_some]

/-- Every run from the start is one of a single process, from its own start. -/
theorem Independent.run_start (h : Independent P Valid At Good ok Effect)
    (h₀ : Starts P Valid At Good g₀ σ σ') {q : Process Tab Obj} (hun : Unattached Valid procs)
    (hq : Unattached Valid fun _ : Unit => q) (hs : P.start σ procs g₀ i = some s)
    (hr : Run P.step (Program.Ok ok) s as t) :
    ∃ s' t', P.start σ (fun _ : Unit => q) g₀ () = some s' ∧
      exec P.step s' (as.filterMap Label.single) = some t' ∧ t'.shared = t.shared ∧
      t'.out = t.out := by
  obtain ⟨s₁, hs₁, hsound, -, hσ, hgh, hout⟩ := h₀.start hun i
  obtain ⟨s', hs', hsound', hat', hσ', hgh', hout'⟩ := h₀.start hq ()
  obtain rfl : s₁ = s := Option.some.inj (hs₁.symm.trans hs)
  have hg : Good s₁.shared s₁.ghost := by
    rw [hσ, hgh]
    exact h₀.good
  obtain ⟨t', ht', -, -, hsh, -, hres⟩ := h.run_single hsound hg hr hsound' hat'
    (hσ'.trans hσ.symm) (hgh'.trans hgh.symm) (hout'.trans hout.symm)
  exact ⟨s', t', hs', ht', hsh, hres⟩

/-- What holds in a run from the start. -/
theorem Independent.sound_start (h : Independent P Valid At Good ok Effect)
    (h₀ : Starts P Valid At Good g₀ σ σ') (hun : Unattached Valid procs)
    (hs : P.start σ procs g₀ i = some s) (hr : Run P.step (Program.Ok ok) s as t) :
    Independent.Sound Valid At t ∧ Good t.shared t.ghost := by
  obtain ⟨s₁, hs₁, hsound, -, hσ, hgh, -⟩ := h₀.start hun i
  obtain rfl : s₁ = s := Option.some.inj (hs₁.symm.trans hs)
  refine h.run_sound hsound ?_ hr
  rw [hσ, hgh]
  exact h₀.good

end HermesShm.Base
