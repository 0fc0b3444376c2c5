import PAMI.Datatype.Code
import PAMI.Datatype.LinkInvariant

namespace PAMI.Datatype

open PAMI.Math.Layout List BitVec

open PAMI.Math (Layout)
open Stack

/-- The un-optimised meaning of an instruction; `σ` gives the layouts of the sub-types. -/
def Instr.meaning (σ : Word → Layout Word Word) : Instr → Layout Word Word
  | copy c => every c.reps.toNat c.stride (block c.bytes.toNat 0)
  | call c => every c.reps.toNat c.stride (σ c.subType)
  | shift s => Layout.shift s

/-- The naive meaning of a call: `reps` blocks of `bytes` every `stride`, `reps` copies of the
sub-type every `stride`, a move of the origin. -/
def AddCall.meaning (σ : Word → Layout Word Word) : AddCall → Layout Word Word
  | shift s => Layout.shift s
  | simple bytes stride reps => every reps.toNat stride (block bytes.toNat 0)
  | typed sub stride reps => every reps.toNat stride (σ sub)

/-- The naive meanings of the calls, one after the other. -/
def naive (σ : Word → Layout Word Word) (calls : List AddCall) : Layout Word Word :=
  (calls.map (AddCall.meaning σ)).prod

/-- The meaning of the instructions of a stack, in the order they run. -/
def Stack.meaning (σ : Word → Layout Word Word) : Stack → Layout Word Word
  | [] => 1
  | i :: st => Stack.meaning σ st * i.meaning σ

/-- No instruction is void, a copy with several repetitions is not contiguous, and a call is of
a type that `T` admits. -/
def Instr.WF (T : Word → Prop) : Instr → Prop
  | copy c => c.bytes ≠ 0 ∧ c.reps ≠ 0 ∧ (c.bytes = c.stride → c.reps = 1)
  | call c => c.reps ≠ 0 ∧ T c.subType
  | shift _ => True

def Stack.WF (T : Word → Prop) (st : Stack) : Prop := ∀ i ∈ st, i.WF T

/-- The bytes an instruction takes in the completed code, with those of the sub-type a call
embeds. -/
def Instr.weight (heap : Word → TypeCode) : Instr → ℕ
  | call c => 32 + (heap c.subType).getCodeSize.toNat
  | i => i.size

def Stack.weight (heap : Word → TypeCode) (st : Stack) : ℕ := (st.map (Instr.weight heap)).sum

/-- The most bytes of completed code a call can add. -/
def AddCall.weight (heap : Word → TypeCode) : AddCall → ℕ
  | typed sub _ _ => 32 + (heap sub).getCodeSize.toNat
  | _ => 32

section Words

theorem toNat_mul_of_lt {a b : Word} (h : a.toNat*b.toNat<2^64) :
    (a*b).toNat=a.toNat*b.toNat := by
  rw [toNat_mul,Nat.mod_eq_of_lt h]

theorem toNat_add_of_lt {a b : Word} (h : a.toNat+b.toNat<2^64) :
    (a+b).toNat=a.toNat+b.toNat := by
  rw [toNat_add,Nat.mod_eq_of_lt h]

theorem toNat_pos {a : Word} (h : a≠0) : 0<a.toNat := by
  rcases eq_zero_or_pos a.toNat with hz | hp
  · exact absurd (eq_of_toNat_eq (by simpa using hz)) h
  · exact hp

theorem toNat_nsmul (a b : Word) : a.toNat • b = a*b := by
  rw [nsmul_eq_mul]
  congr 1
  exact eq_of_toNat_eq (by simp)

theorem every_block (bytes stride reps : Word) :
    every reps.toNat stride (block bytes.toNat 0) = block bytes.toNat stride^reps.toNat := by
  rw [every_eq_pow,block_withAdvance]

theorem block_copies_zero (stride reps : Word) :
    block (0 : Word).toNat stride^reps.toNat = shift (stride*reps) := by
  rw [pow_of_items_nil _ (by simp [block]),block_advance,toNat_nsmul,mul_comm]

theorem block_copies_collapse {bytes stride : Word} (he : bytes=stride) (reps : Word) :
    block bytes.toNat stride^reps.toNat = block (bytes.toNat*reps.toNat) (stride*reps) := by
  subst he
  have hcast (a : Word) : ((a.toNat : ℕ) : Word)=a := eq_of_toNat_eq (by simp)
  have hp := block_pow (D := Word) bytes.toNat reps.toNat
  rw [hcast] at hp
  rw [hp,Nat.cast_mul,hcast,hcast]

theorem block_copies_adjacent (b1 bytes stride : Word) :
    block b1.toNat b1*block bytes.toNat stride = block (b1.toNat+bytes.toNat) (b1+stride) := by
  have hcast : ((b1.toNat : ℕ) : Word)=b1 := eq_of_toNat_eq (by simp)
  have hm := block_mul_block (D := Word) b1.toNat bytes.toNat stride
  rw [hcast] at hm
  exact hm

end Words

section Fits

mutual

/-- Whether the sums to which `addShift` merges instructions fit into a word. -/
def shiftFits : ℕ → Stack → Word → Bool
  | 0, _, _ => true
  | fuel + 1, st, s =>
    if s = 0 then true
    else match Stack.ops.topShift st with
      | some prev => shiftFits fuel st.tail (prev + s)
      | none => match Stack.ops.topCopy st with
        | some prev =>
          if prev.reps = 1 then simpleFits fuel st.tail prev.bytes (prev.stride + s) 1 else true
        | none => true

def simpleFits : ℕ → Stack → Word → Word → Word → Bool
  | 0, _, _, _, _ => true
  | fuel + 1, st, bytes, stride, reps =>
    if reps = 0 then true
    else if bytes = 0 then shiftFits fuel st (stride * reps)
    else if bytes = stride ∧ 1 < reps then
      bytes.toNat * reps.toNat < 2^64 && simpleFits fuel st (bytes * reps) (stride * reps) 1
    else match Stack.ops.topCopy st with
      | some prev =>
        if prev.bytes = prev.stride ∧ reps = 1 then
          prev.bytes.toNat + bytes.toNat < 2^64 &&
            simpleFits fuel st.tail (prev.bytes + bytes) (prev.stride + stride) 1
        else if prev.bytes = bytes ∧ prev.stride = stride then
          prev.reps.toNat + reps.toNat < 2^64 && simpleFits fuel st.tail bytes stride (prev.reps + reps)
        else true
      | none => true

end

variable (heap : Word → TypeCode) (σ : Word → Layout Word Word)

/-- The same of `addTypedInternal`; calls of a sub-type without bytes may number any. -/
def typedFits : ℕ → Stack → Word → Word → Word → Bool
  | 0, _, _, _, _ => true
  | fuel + 1, st, sub, stride, reps =>
    let subType := heap sub
    let subCopy := subType.singleCopy
    if reps = 0 then true
    else if subType.isContiguous then simpleFits fuel st subType.getDataSize stride reps
    else if subType.isSimple ∧ stride = subType.getExtent then
      subCopy.reps.toNat * reps.toNat < 2^64 &&
        simpleFits fuel st subCopy.bytes subCopy.stride (subCopy.reps * reps)
    else if subType.isSimple ∧ subCopy.reps = 1 then simpleFits fuel st subCopy.bytes stride reps
    else match Stack.ops.topCall st with
      | some prev =>
        if prev.subType = sub ∧ prev.stride = stride then
          ((σ sub).items = [] || prev.reps.toNat + reps.toNat < 2^64) &&
            typedFits fuel st.tail sub stride (prev.reps + reps)
        else true
      | none => true

def AddCall.fits (st : Stack) : AddCall → Bool
  | shift s => shiftFits (Stack.ops.fuel st) st s
  | simple bytes stride reps => simpleFits (Stack.ops.fuel st) st bytes stride reps
  | typed sub stride reps => typedFits heap σ (Stack.ops.fuel st) st sub stride reps

/-- In every call of the run, the sums of the merged instructions fit into a word. -/
def MergesFit (calls : List AddCall) : Prop :=
  ∀ pre c, pre ++ [c] <+: calls → ∀ st, Stack.run heap pre = some st → c.fits heap σ st = true

/-- A layout is another one if `p` holds, and has lost cells of it if not. -/
def KeptIf (p : Prop) (y x : Layout Word Word) : Prop :=
  (p → y = x) ∧ (¬ p → y.items.length < x.items.length)

variable {p q : Prop} {x y z : Layout Word Word} {w : Word} {n : ℕ}

theorem KeptIf.of_eq (hp : p) (h : y=x) : KeptIf p y x := ⟨fun _ => h,fun hn => absurd hp hn⟩

theorem KeptIf.trans (h : KeptIf p z y) (h' : KeptIf q y x) : KeptIf (q ∧ p) z x := by
  by_cases hp : p <;> by_cases hq : q
  · exact .of_eq ⟨hq,hp⟩ ((h.1 hp).trans (h'.1 hq))
  · exact ⟨fun hn => absurd hn.1 hq,fun _ => (h.1 hp) ▸ h'.2 hq⟩
  · exact ⟨fun hn => absurd hn.2 hp,fun _ => (h'.1 hq) ▸ h.2 hp⟩
  · exact ⟨fun hn => absurd hn.2 hp,fun _ => (h.2 hp).trans (h'.2 hq)⟩

theorem KeptIf.iff (h : KeptIf p y x) : y=x ↔ p := by
  refine ⟨fun he => ?_,h.1⟩
  by_contra hn
  exact (h.2 hn).ne (by rw [he])

theorem KeptIf.mul_left (h : KeptIf p y x) (z : Layout Word Word) : KeptIf p (z*y) (z*x) := by
  refine ⟨fun hp => by rw [h.1 hp],fun hn => ?_⟩
  have hlt := h.2 hn
  rw [mul_items_length,mul_items_length]
  omega

theorem KeptIf.mul_right (h : KeptIf p y x) (z : Layout Word Word) : KeptIf p (y*z) (x*z) := by
  refine ⟨fun hp => by rw [h.1 hp],fun hn => ?_⟩
  have hlt := h.2 hn
  rw [mul_items_length,mul_items_length]
  omega

theorem KeptIf.block_word (hw : w.toNat=n%2^64) (a : Word) :
    KeptIf (n<2^64) (block w.toNat a) (block n a) := by
  refine ⟨fun hlt => by rw [hw,Nat.mod_eq_of_lt hlt],fun hn => ?_⟩
  rw [block_items_length,block_items_length]
  omega

theorem KeptIf.pow_word (hx : x.items ≠ []) (hw : w.toNat=n%2^64) : KeptIf (n<2^64) (x^w.toNat) (x^n) := by
  refine ⟨fun hlt => by rw [hw,Nat.mod_eq_of_lt hlt],fun hn => ?_⟩
  rw [pow_items_length,pow_items_length]
  exact Nat.mul_lt_mul_of_pos_right (by omega) (length_pos_iff.mpr hx)

theorem KeptIf.reps_add (x : Layout Word Word) (r1 r2 : Word) :
    KeptIf (x.items = [] ∨ r1.toNat+r2.toNat<2^64) (x^(r1+r2).toNat) (x^r1.toNat*x^r2.toNat) := by
  by_cases hx : x.items = []
  · refine .of_eq (.inl hx) ?_
    rw [pow_of_items_nil _ hx,pow_of_items_nil _ hx,pow_of_items_nil _ hx,
      shift_mul_shift,toNat_nsmul,toNat_nsmul,toNat_nsmul]
    congr 1
    ring
  · rw [or_iff_right hx,← pow_add]
    exact .pow_word hx (toNat_add _ _)

end Fits

section Rewrites

variable {heap : Word → TypeCode} {T : Word → Prop} {σ : Word → Layout Word Word} {st : Stack}
  {x y : Layout Word Word} {r : Option Stack} {i : Instr} {w w' : ℕ} {p q : Prop}

theorem Instr.meaning_copy (c : Copy) :
    (Instr.copy c).meaning σ = block c.bytes.toNat c.stride^c.reps.toNat :=
  every_block _ _ _

theorem Instr.meaning_call (c : Call) :
    (Instr.call c).meaning σ = (σ c.subType).withAdvance c.stride^c.reps.toNat :=
  every_eq_pow _ _ _

theorem meaning_cons (i : Instr) (st : Stack) :
    Stack.meaning σ (i :: st) = Stack.meaning σ st*i.meaning σ := rfl

theorem Stack.WF.cons (hi : i.WF T) (h : WF T st) : WF T (i :: st) := by
  intro j hj
  rcases mem_cons.mp hj with rfl | hj
  · exact hi
  · exact h j hj

theorem Stack.WF.tail (h : WF T (i :: st)) : WF T st := fun j hj => h j (mem_cons_of_mem _ hj)

/-- A rewrite that adds `x` succeeds with at most `w` bytes of code more, and it multiplies the
meaning of the stack by `x` if `p` holds; if not, cells are lost. -/
def Adds (heap : Word → TypeCode) (T : Word → Prop) (σ : Word → Layout Word Word) (w : ℕ) (p : Prop)
    (st : Stack) (x : Layout Word Word) (r : Option Stack) : Prop :=
  ∃ st', r = some st' ∧ WF T st' ∧ Stack.weight heap st' ≤ Stack.weight heap st + w ∧
    KeptIf p (Stack.meaning σ st') (Stack.meaning σ st * x)

theorem weight_cons (i : Instr) (st : Stack) :
    Stack.weight heap (i :: st) = i.weight heap+Stack.weight heap st := by
  simp [Stack.weight]

theorem Adds.push (hp : p) (hi : i.WF T) (hw : i.weight heap ≤ w) (h : WF T st) :
    Adds heap T σ w p st (i.meaning σ) (some (i :: st)) :=
  ⟨i :: st,rfl,h.cons hi,by rw [weight_cons]; omega,.of_eq hp rfl⟩

theorem Adds.keep (hp : p) (h : WF T st) : Adds heap T σ w p st 1 (some st) :=
  ⟨st,rfl,h,by omega,.of_eq hp (mul_one _).symm⟩

theorem Adds.mono (h : Adds heap T σ w p st x r) (hw : w≤w') : Adds heap T σ w' p st x r := by
  obtain ⟨st',hr,hwf,hwt,hm⟩ := h
  exact ⟨st',hr,hwf,by omega,hm⟩

theorem Adds.merge (h : Adds heap T σ w p st y r) (hxy : KeptIf q y x) :
    Adds heap T σ w (q ∧ p) st x r := by
  obtain ⟨st',hr,hwf,hwt,hm⟩ := h
  exact ⟨st',hr,hwf,hwt,hm.trans (hxy.mul_left _)⟩

theorem Adds.congr (h : Adds heap T σ w p st y r) (hxy : y=x) : Adds heap T σ w p st x r := hxy ▸ h

theorem Adds.pop (h : Adds heap T σ w p st (i.meaning σ*x) r) : Adds heap T σ w p (i :: st) x r := by
  obtain ⟨st',hr,hwf,hwt,hm⟩ := h
  rw [← mul_assoc] at hm
  exact ⟨st',hr,hwf,by rw [weight_cons]; omega,hm⟩

theorem copy_wf {bytes stride reps : Word} (hz : bytes≠0) (hr : reps≠0)
    (hd : ¬ (bytes=stride ∧ 1 < reps)) : (Instr.copy ⟨bytes,stride,reps⟩).WF T := by
  refine ⟨hz,hr,fun he => ?_⟩
  have hpos := toNat_pos hr
  have hle : ¬ 1 < reps.toNat := fun hgt => hd ⟨he,by simpa [lt_def] using hgt⟩
  apply eq_of_toNat_eq
  show reps.toNat=1
  omega

theorem addShift_addSimpleInternal_adds (heap : Word → TypeCode) (T : Word → Prop) (σ : Word → Layout Word Word) (fuel : ℕ) :
    (∀ (st : Stack) s, WF T st → 3*st.length+1≤fuel →
      Adds heap T σ 32 (shiftFits fuel st s) st (shift s) (addShift Stack.ops fuel st s)) ∧
    (∀ (st : Stack) bytes stride reps, WF T st → 3*st.length+2≤fuel → (reps≠1 → 3*st.length+3≤fuel) →
      Adds heap T σ 32 (simpleFits fuel st bytes stride reps) st (block bytes.toNat stride^reps.toNat)
        (addSimpleInternal Stack.ops fuel st bytes stride reps)) := by
  have hone : (1 : Word).toNat=1 := rfl
  induction fuel with
  | zero => exact ⟨fun _ _ _ hf => by omega,fun _ _ _ _ _ hf => by omega⟩
  | succ fuel ih =>
    obtain ⟨ihShift,ihSimple⟩ := ih
    constructor
    · intro st s hwf hf
      rw [addShift,shiftFits]
      by_cases hs : s=0
      · rw [if_pos hs,if_pos hs,hs,shift_zero]
        exact .keep rfl hwf
      rw [if_neg hs,if_neg hs]
      have hpush : Adds heap T σ 32 (true=true) st (shift s) (some (.shift s :: st)) :=
        .push (i := .shift s) rfl trivial (by simp [Instr.weight,Instr.size,Instr.operands]) hwf
      rcases st with _ | ⟨c | c | prev,st⟩
      · exact hpush
      · rw [length_cons] at hf
        show Adds heap T σ 32 ((if c.reps=1 then _ else _)=true) _ _ (if c.reps=1 then _ else _)
        by_cases hr : c.reps=1
        · -- the shift is folded into the stride of the single copy
          rw [if_pos hr,if_pos hr]
          refine ((ihSimple st c.bytes (c.stride+s) 1 hwf.tail (by omega) (by simp)).congr ?_).pop
          rw [Instr.meaning_copy,hr,hone,pow_one,pow_one,block_mul_shift]
        · rw [if_neg hr,if_neg hr]
          exact hpush
      · exact hpush
      · rw [length_cons] at hf
        refine ((ihShift st (prev+s) hwf.tail (by omega)).congr ?_).pop
        rw [Instr.meaning,shift_mul_shift]
    · intro st bytes stride reps hwf hf hf'
      rw [addSimpleInternal,simpleFits]
      by_cases hr : reps=0
      · rw [if_pos hr,if_pos hr,hr,show (0 : Word).toNat=0 from rfl,pow_zero]
        exact .keep rfl hwf
      rw [if_neg hr,if_neg hr]
      by_cases hz : bytes=0
      · rw [if_pos hz,if_pos hz]
        refine (ihShift st (stride*reps) hwf (by omega)).congr ?_
        rw [hz,block_copies_zero]
      rw [if_neg hz,if_neg hz]
      by_cases hd : bytes=stride ∧ 1 < reps
      · rw [if_pos hd,if_pos hd,Bool.and_eq_true,decide_eq_true_iff]
        have hr1 : reps≠1 := by
          rintro rfl
          exact absurd hd.2 (by decide)
        refine (ihSimple st _ _ 1 hwf (by have := hf' hr1; omega) (by simp)).merge ?_
        rw [hone,pow_one,block_copies_collapse hd.1]
        exact .block_word (toNat_mul _ _) _
      rw [if_neg hd,if_neg hd]
      have hpush : Adds heap T σ 32 (true=true) st (block bytes.toNat stride^reps.toNat)
          (some (.copy ⟨bytes,stride,reps⟩ :: st)) := by
        rw [← Instr.meaning_copy (σ := σ) ⟨bytes,stride,reps⟩]
        exact .push rfl (copy_wf hz hr hd) (le_refl 32) hwf
      rcases st with _ | ⟨c | c | prev,st⟩
      · exact hpush
      · rw [length_cons] at hf
        obtain ⟨hcb,hcr,hcs⟩ := hwf (.copy c) (by simp)
        show Adds heap T σ 32 ((if c.bytes=c.stride ∧ reps=1 then _ else _)=true) _ _
          (if c.bytes=c.stride ∧ reps=1 then _ else _)
        by_cases hm : c.bytes=c.stride ∧ reps=1
        · -- the copy before is contiguous, so it has one repetition
          rw [if_pos hm,if_pos hm,Bool.and_eq_true,decide_eq_true_iff]
          refine ((ihSimple st _ _ 1 hwf.tail (by omega) (by simp)).merge ?_).pop
          rw [Instr.meaning_copy,hcs hm.1,hm.2,← hm.1,hone,pow_one,pow_one,pow_one,block_copies_adjacent]
          exact .block_word (toNat_add _ _) _
        rw [if_neg hm,if_neg hm]
        by_cases hm' : c.bytes=bytes ∧ c.stride=stride
        · rw [if_pos hm',if_pos hm',Bool.and_eq_true,decide_eq_true_iff]
          refine ((ihSimple st _ _ _ hwf.tail (by omega) (fun _ => by omega)).merge ?_).pop
          rw [Instr.meaning_copy,hm'.1,hm'.2,← pow_add]
          exact .pow_word (by simpa [block] using (toNat_pos hz).ne') (toNat_add _ _)
        · rw [if_neg hm',if_neg hm']
          exact hpush
      · exact hpush
      · exact hpush

theorem Represents.singleCopy {t : TypeCode} {c : Copy} (h : Represents t (.copy c .done)) :
    opcodeOf (t.code 64) = Opcode.COPY.code ∧ t.singleCopy=c := by
  obtain ⟨hop,⟨hb,hs,hr⟩,-,-⟩ := h.code
  refine ⟨hop,?_⟩
  rw [TypeCode.singleCopy,show t.code 72=c.bytes from hb,show t.code 80=c.stride from hs,
    show t.code 88=c.reps from hr]

theorem Code.eq_of_isSimple {c : Code} (h : c.isSimple=true) : ∃ cp, c = .copy cp .done := by
  rcases c with _ | ⟨cp,_ | _ | _ | _⟩ | _ | _ <;> simp [Code.isSimple] at h
  exact ⟨cp,rfl⟩

theorem Code.eq_of_isContiguous {c : Code} (h : c.isContiguous=true) :
    ∃ cp, c = .copy cp .done ∧ cp.bytes=cp.stride ∧ cp.reps=1 := by
  rcases c with _ | ⟨cp,_ | _ | _ | _⟩ | _ | _ <;> simp [Code.isContiguous] at h
  exact ⟨cp,rfl,h⟩

theorem addTypedInternal_adds {sub : Word} {c : Code}
    (hrep : Represents (heap sub) c) (hT : T sub) (hσ : σ sub = c.layout) (fuel : ℕ)
    (st : Stack) (stride reps : Word) (hwf : WF T st) (hf : 3*st.length+4≤fuel) :
    Adds heap T σ (32+(heap sub).getCodeSize.toNat) (typedFits heap σ fuel st sub stride reps) st
      ((σ sub).withAdvance stride^reps.toNat) (addTypedInternal Stack.ops heap fuel st sub stride reps) := by
  have hone : (1 : Word).toNat=1 := rfl
  induction fuel generalizing st reps with
  | zero => omega
  | succ fuel ih =>
    have hsim (bytes s r : Word) : Adds heap T σ (32+(heap sub).getCodeSize.toNat)
        (simpleFits fuel st bytes s r) st (block bytes.toNat s^r.toNat)
        (addSimpleInternal Stack.ops fuel st bytes s r) :=
      ((addShift_addSimpleInternal_adds heap T σ fuel).2 st bytes s r hwf (by omega)
        (fun _ => by omega)).mono (by omega)
    simp only [addTypedInternal,typedFits]
    by_cases hr : reps=0
    · rw [if_pos hr,if_pos hr,hr,show (0 : Word).toNat=0 from rfl,pow_zero]
      exact .keep rfl hwf
    rw [if_neg hr,if_neg hr]
    by_cases hc : (heap sub).isContiguous
    · rw [if_pos hc,if_pos hc]
      obtain ⟨cp,rfl,he,hr1⟩ := Code.eq_of_isContiguous (hrep.header.contiguous.symm.trans hc)
      have hsi : (heap sub).getDataSize=cp.bytes := by
        have hd := hrep.header.dataSize
        rw [Code.size_copy,hr1,hone,one_mul,Code.size_done,add_zero] at hd
        exact hd.trans (eq_of_toNat_eq (by simp))
      refine (hsim _ _ _).congr ?_
      rw [hsi,hσ,Code.layout_copy,hr1,hone,pow_one,Code.layout_done,mul_one,block_withAdvance]
    rw [if_neg hc,if_neg hc]
    have hs := hrep.header.simple
    have hpush : Adds heap T σ (32+(heap sub).getCodeSize.toNat) (true=true) st
        ((σ sub).withAdvance stride^reps.toNat) (some (.call ⟨sub,stride,reps⟩ :: st)) := by
      rw [← Instr.meaning_call (σ := σ) ⟨sub,stride,reps⟩]
      exact .push (i := .call ⟨sub,stride,reps⟩) rfl ⟨hr,hT⟩ (le_refl _) hwf
    have hcall : Adds heap T σ (32+(heap sub).getCodeSize.toNat)
        ((Stack.ops.topCall st).elim true fun prev =>
          if prev.subType=sub ∧ prev.stride=stride then
            ((σ sub).items = [] || prev.reps.toNat+reps.toNat<2^64) &&
              typedFits heap σ fuel st.tail sub stride (prev.reps+reps)
          else true) st ((σ sub).withAdvance stride^reps.toNat)
        ((Stack.ops.topCall st).elim (some (Stack.ops.push st (.call ⟨sub,stride,reps⟩))) fun prev =>
          if prev.subType=sub ∧ prev.stride=stride then
            (Stack.ops.pop st).bind fun st => addTypedInternal Stack.ops heap fuel st sub stride (prev.reps+reps)
          else some (Stack.ops.push st (.call ⟨sub,stride,reps⟩))) := by
      rcases st with _ | ⟨cp | cp | prev,st⟩
      · exact hpush
      · exact hpush
      · rw [length_cons] at hf
        show Adds heap T σ (32+(heap sub).getCodeSize.toNat)
          ((if cp.subType=sub ∧ cp.stride=stride then _ else _)=true) _ _
          (if cp.subType=sub ∧ cp.stride=stride then _ else _)
        by_cases hm : cp.subType=sub ∧ cp.stride=stride
        · rw [if_pos hm,if_pos hm,Bool.and_eq_true,Bool.or_eq_true,decide_eq_true_iff,decide_eq_true_iff]
          refine ((ih st (cp.reps+reps) hwf.tail (by omega)).merge ?_).pop
          rw [Instr.meaning_call,hm.1,hm.2]
          exact .reps_add ((σ sub).withAdvance stride) _ _
        · rw [if_neg hm,if_neg hm]
          exact hpush
      · exact hpush
    by_cases hsm : (heap sub).isSimple
    · obtain ⟨cp,rfl⟩ := Code.eq_of_isSimple (hs.symm.trans hsm)
      obtain ⟨hop,hcopy⟩ := hrep.singleCopy
      obtain ⟨hb,-,-,-⟩ := hrep.wf
      simp only [hsm,true_and,hop,hcopy,ne_eq,not_true_eq_false,if_false]
      have hlay : σ sub = block cp.bytes.toNat cp.stride^cp.reps.toNat := by
        rw [hσ,Code.layout_copy,Code.layout_done,mul_one]
      by_cases hx : stride=(heap sub).getExtent
      · -- the repetitions of the call continue those of the copy
        rw [if_pos hx,if_pos hx,Bool.and_eq_true,decide_eq_true_iff]
        refine (hsim _ _ _).merge ?_
        have hadv : (σ sub).advance=stride := by
          rw [hx,hσ]
          exact hrep.header.extent.symm
        rw [← hadv,withAdvance_self,hlay,← pow_mul]
        exact .pow_word (by simpa [block] using (toNat_pos hb).ne') (toNat_mul _ _)
      rw [if_neg hx,if_neg hx]
      by_cases hr1 : cp.reps=1
      · rw [if_pos hr1,if_pos hr1]
        refine (hsim _ _ _).congr ?_
        rw [hlay,hr1,hone,pow_one,block_withAdvance]
      · rw [if_neg hr1,if_neg hr1]
        cases htop : Stack.ops.topCall st <;> rw [htop] at hcall <;> exact hcall
    · simp only [hsm,Bool.false_eq_true,false_and,if_false]
      cases htop : Stack.ops.topCall st <;> rw [htop] at hcall <;> exact hcall

theorem exec_adds (κ : Word → Code) (hσ : ∀ p, σ p = (κ p).layout)
    {c : AddCall} (hsub : ∀ sub stride reps, c = .typed sub stride reps →
      T sub ∧ Represents (heap sub) (κ sub)) (hwf : WF T st) :
    Adds heap T σ (c.weight heap) (c.fits heap σ st) st (c.meaning σ) (c.exec Stack.ops heap st) := by
  have hfuel : 3*st.length+4≤Stack.ops.fuel st := by
    have hge := codeSize_ge st
    show _ ≤ codeSize st
    omega
  cases c with
  | shift s => exact (addShift_addSimpleInternal_adds heap T σ _).1 st s hwf (by omega)
  | simple bytes stride reps =>
    rw [AddCall.meaning,every_block]
    exact (addShift_addSimpleInternal_adds heap T σ _).2 st bytes stride reps hwf (by omega)
      (fun _ => by omega)
  | typed sub stride reps =>
    obtain ⟨hT,hrep⟩ := hsub sub stride reps rfl
    rw [AddCall.meaning,every_eq_pow]
    exact addTypedInternal_adds hrep hT (hσ sub) _ st stride reps hwf hfuel

end Rewrites

section Run

variable (heap : Word → TypeCode) (κ : Word → Code)

/-- The types a sequence of calls adds, as completed code. -/
def Uses (calls : List AddCall) (sub : Word) : Prop :=
  ∃ stride reps, AddCall.typed sub stride reps ∈ calls

/-- The most bytes of completed code the calls can add. -/
def callsWeight (calls : List AddCall) : ℕ := (calls.map (AddCall.weight heap)).sum

theorem naive_concat (σ : Word → Layout Word Word) (calls : List AddCall) (c : AddCall) :
    naive σ (calls ++ [c]) = naive σ calls*c.meaning σ := by
  simp [naive]

theorem MergesFit.concat {σ : Word → Layout Word Word} {calls : List AddCall} {c : AddCall} {st : Stack}
    (hst : Stack.run heap calls = some st) :
    MergesFit heap σ (calls ++ [c]) ↔ MergesFit heap σ calls ∧ c.fits heap σ st := by
  constructor
  · intro h
    exact ⟨fun pre c' hpre => h pre c' (hpre.trans (prefix_append _ _)),h calls c (prefix_refl _) st hst⟩
  · rintro ⟨h,hc⟩ pre c' hpre st' hst'
    rcases prefix_concat_iff.mp hpre with heq | hpre
    · obtain ⟨rfl,rfl⟩ := append_singleton_inj.mp heq
      obtain rfl := Option.some_inj.mp (hst.symm.trans hst')
      exact hc
    · exact h pre c' hpre st' hst'

theorem run_meaning (calls : List AddCall)
    (hsub : ∀ sub, Uses calls sub → Represents (heap sub) (κ sub)) :
    Adds heap (Uses calls) (fun p => (κ p).layout) (callsWeight heap calls)
      (MergesFit heap (fun p => (κ p).layout) calls) [] (naive (fun p => (κ p).layout) calls)
      (Stack.run heap calls) := by
  have hrun (pre : List AddCall) (hpre : pre <+: calls) :
      Adds heap (Uses calls) (fun p => (κ p).layout) (callsWeight heap pre)
        (MergesFit heap (fun p => (κ p).layout) pre) [] (naive (fun p => (κ p).layout) pre)
        (Stack.run heap pre) := by
    induction pre using List.reverseRecOn with
    | nil => exact .keep (fun pre c hpre => by simpa using hpre.length_le) (by simp [Stack.WF])
    | append_singleton pre c ih =>
      obtain ⟨st,hst,hwf,hwt,hm⟩ := ih ((prefix_append pre [c]).trans hpre)
      have hmem : c ∈ calls := hpre.subset (by simp)
      obtain ⟨st',hst',hwf',hwt',hm'⟩ := exec_adds (T := Uses calls) κ (fun _ => rfl)
        (fun sub stride reps hc => ⟨⟨stride,reps,hc ▸ hmem⟩,hsub sub ⟨stride,reps,hc ▸ hmem⟩⟩)
        hwf
      refine ⟨st',by rw [run_concat,hst]; exact hst',hwf',?_,?_⟩
      · simp only [callsWeight,map_append,List.sum_append,map_cons,map_nil,sum_cons,sum_nil] at hwt ⊢
        omega
      · rw [naive_concat,← mul_assoc,MergesFit.concat heap hst]
        exact hm'.trans (hm.mul_right _)
  exact hrun calls (prefix_refl _)

end Run

end PAMI.Datatype
