import PAMI.Datatype.Rewrites

namespace PAMI.Datatype

open Function TypeCode BitVec

open PAMI.Math (Layout)
open Stack

namespace TypeCode

section Complete

variable (fresh : ℕ → Memory) (heap : Word → TypeCode)

/-- `memcpy` of the code of a sub-type to the cursor, which moves behind it. -/
def appendCode (t sub : TypeCode) : TypeCode :=
  let size := sub.getCodeSize.toNat
  { t with
    code := fun off =>
      if t.codeCursor ≤ off ∧ off < t.codeCursor + size then sub.code (off - t.codeCursor)
      else t.code off
    codeCursor := t.codeCursor + size }

/-- The `COPY` case of the loop of `Complete`. -/
def completeCopy (t : TypeCode) (pc : ℕ) : TypeCode :=
  let op : Copy := ⟨t.code (pc + 8), t.code (pc + 16), t.code (pc + 24)⟩
  -- if not the first COPY => not simple
  let t := if prevOf (t.code pc) ≠ Opcode.BEGIN.code then t.setSimple false else t
  let t := t.addDataSize (op.bytes * op.reps)
  let t := t.addExtent (op.stride * op.reps)
  let t := t.addNumBlocks op.reps
  t.updateUnit op.bytes

/-- The `CALL` case: the code of the sub-type is laid behind the code so far. -/
def completeCall (t : TypeCode) (pc : ℕ) : TypeCode :=
  let op : Call := ⟨t.code (pc + 8), t.code (pc + 16), t.code (pc + 24)⟩
  let sub := heap op.subType
  let t := t.setSimple false
  let t := t.addCodeSize sub.getCodeSize
  let t := t.resizeCodeBuffer fresh t.getCodeSize.toNat
  -- the location of the sub-type, relative to the call
  let t := t.put (pc + 8) (BitVec.ofNat 64 (t.codeCursor - pc))
  let t := t.appendCode sub
  let t := t.addDataSize (sub.getDataSize * op.reps)
  let t := t.addExtent (op.stride * op.reps)
  let t := t.updateDepth (sub.getDepth + 1)
  let t := t.addNumBlocks (sub.getNumBlocks * op.reps)
  t.updateUnit sub.getUnit

/-- The `SHIFT` case. -/
def completeShift (t : TypeCode) (pc : ℕ) : TypeCode :=
  let shift := t.code (pc + 8)
  let t := t.setSimple false
  t.addExtent shift

/-- The loop of `Complete` from `pc` on, `none` for a bogus opcode. -/
def completeLoop : ℕ → TypeCode → ℕ → Option TypeCode
  | 0, _, _ => none
  | fuel + 1, t, pc =>
    if opcodeOf (t.code pc) = Opcode.BEGIN.code then completeLoop fuel t (pc + 64)
    else if opcodeOf (t.code pc) = Opcode.COPY.code then
      completeLoop fuel (t.completeCopy pc) (pc + 32)
    else if opcodeOf (t.code pc) = Opcode.CALL.code then
      completeLoop fuel (t.completeCall fresh heap pc) (pc + 32)
    else if opcodeOf (t.code pc) = Opcode.SHIFT.code then
      completeLoop fuel (t.completeShift pc) (pc + 16)
    else if opcodeOf (t.code pc) = Opcode.END.code then
      -- no instruction breaks simplicity
      some (if prevOf (t.code pc) = Opcode.BEGIN.code then t.setSimple false else t)
    else none

/-- The check for contiguity, with its assertion that the single copy does not repeat. -/
def checkContiguity (t : TypeCode) : Option TypeCode :=
  if t.isSimple = false then some (t.setContiguous false)
  else if t.singleCopy.bytes ≠ t.singleCopy.stride then some (t.setContiguous false)
  else if t.singleCopy.reps = 1 then some t
  else none

def complete (t : TypeCode) : Option TypeCode :=
  if t.completed then none
  else
    let t := push fresh t .END []
    if t.codeCursor ≤ t.getCodeSize.toNat then
      (completeLoop fresh heap t.codeCursor t 0).bind fun t => t.checkContiguity.map fun t =>
        let t := if t.getPrimitive = primitiveUndefined then t.setPrimitive primitiveCount else t
        { t with completed := true }
    else none

end Complete

end TypeCode

/-- The code tree of instructions in the order they run. -/
def ofInstrs (κ : Word → Code) : List Instr → Code
  | [] => .done
  | .copy c :: is => .copy c (ofInstrs κ is)
  | .call c :: is => .call (κ c.subType) c.stride c.reps (ofInstrs κ is)
  | .shift s :: is => .shift s (ofInstrs κ is)

def instrBytes (is : List Instr) : ℕ := (is.map Instr.size).sum

/-- The bytes of the sub-type code that `Complete` copies behind them. -/
def subBytes (heap : Word → TypeCode) : List Instr → ℕ
  | [] => 0
  | .call c :: is => (heap c.subType).getCodeSize.toNat + subBytes heap is
  | _ :: is => subBytes heap is

/-- The instructions lie from `pc` on, up to `END`, linked to what is before them. -/
def RawAt (m : Memory) : ℕ → Opcode → List Instr → Prop
  | pc, _, [] => opcodeOf (m pc) = Opcode.END.code
  | pc, prev, i :: is => opcodeOf (m pc) = i.opcode.code ∧ prevOf (m pc) = prev.code ∧
      fields m (pc + 8) i.operands.length = i.operands ∧ RawAt m (pc + i.size) i.opcode is

/-- The deepest sub-type the instructions call, counted from here. -/
def callDepth (κ : Word → Code) : List Instr → ℕ
  | [] => 0
  | .call c :: is => max ((κ c.subType).depth + 1) (callDepth κ is)
  | _ :: is => callDepth κ is

/-- Whether the loop leaves a type simple, given the `prev_opcode` it finds in `END`. -/
def keepsSimple (endPrev : BitVec 32) : Opcode → List Instr → Bool
  | _, [] => endPrev ≠ Opcode.BEGIN.code
  | prev, .copy _ :: is => prev = .BEGIN && keepsSimple endPrev .COPY is
  | _, _ => false

/-- What a part of the loop adds to the header of a type. -/
structure Counts (t u : TypeCode) (simple : Bool) (depth size blocks unit : ℕ) (advance : Word) :
    Prop where
  opcode : u.code 0 = t.code 0
  contiguous : u.isContiguous = t.isContiguous
  simple : u.isSimple = (t.isSimple && simple)
  depth : depth < 2^32 → u.getDepth.toNat = max t.getDepth.toNat depth
  dataSize : u.getDataSize = t.getDataSize + BitVec.ofNat 64 size
  extent : u.getExtent = t.getExtent + advance
  numBlocks : u.getNumBlocks = t.getNumBlocks + BitVec.ofNat 64 blocks
  unit : u.getUnit.toNat = Nat.gcd t.getUnit.toNat unit

theorem Counts.trans {t u v : TypeCode} {k k' : Bool} {d d' n n' b b' g g' : ℕ} {a a' : Word}
    (h : Counts t u k d n b g a) (h' : Counts u v k' d' n' b' g' a') :
    Counts t v (k && k') (max d d') (n+n') (b+b') (Nat.gcd g g') (a+a') where
  opcode := h'.opcode.trans h.opcode
  contiguous := h'.contiguous.trans h.contiguous
  simple := by rw [h'.simple,h.simple,Bool.and_assoc]
  depth := by
    intro hd
    rw [h'.depth (by omega),h.depth (by omega),max_assoc]
  dataSize := by rw [h'.dataSize,h.dataSize,ofNat_add,BitVec.add_assoc]
  extent := by rw [h'.extent,h.extent,BitVec.add_assoc]
  numBlocks := by rw [h'.numBlocks,h.numBlocks,ofNat_add,BitVec.add_assoc]
  unit := by rw [h'.unit,h.unit,Nat.gcd_assoc]

section Header

variable (t : TypeCode)

/-- An update of the header that leaves the instructions alone. -/
structure HeaderOnly (t u : TypeCode) : Prop where
  cursor : u.codeCursor = t.codeCursor
  completed : u.completed = t.completed
  codeSize : u.getCodeSize = t.getCodeSize
  code : ∀ i, 64 ≤ i → u.code i = t.code i

theorem HeaderOnly.trans {t u v : TypeCode} (h : HeaderOnly t u) (h' : HeaderOnly u v) :
    HeaderOnly t v :=
  ⟨h'.cursor.trans h.cursor,h'.completed.trans h.completed,h'.codeSize.trans h.codeSize,
    fun i hi => (h'.code i hi).trans (h.code i hi)⟩

theorem HeaderOnly.put {off : ℕ} (w : Word) (h64 : off<64) (h16 : off≠16) :
    HeaderOnly t (t.put off w) :=
  ⟨rfl,rfl,update_of_ne (by omega) _ _,fun i hi => update_of_ne (by omega) _ _⟩

theorem setSimple_counts :
    HeaderOnly t (t.setSimple false) ∧ Counts t (t.setSimple false) false 0 0 0 0 0 := by
  refine ⟨.put t _ (by decide) (by decide),?_⟩
  constructor <;>
    simp [setSimple,setFlags,put,isContiguous,isSimple,getDepth,flags,getDataSize,
      getExtent,getNumBlocks,getUnit]

theorem Counts.refl : Counts t t true 0 0 0 0 0 := by
  constructor <;> simp

theorem addDataSize_counts (n : ℕ) :
    HeaderOnly t (t.addDataSize (BitVec.ofNat 64 n)) ∧
      Counts t (t.addDataSize (BitVec.ofNat 64 n)) true 0 n 0 0 0 := by
  refine ⟨.put t _ (by decide) (by decide),?_⟩
  constructor <;>
    simp [addDataSize,put,isContiguous,isSimple,getDepth,flags,getDataSize,getExtent,getNumBlocks,getUnit]

theorem addExtent_counts (a : Word) :
    HeaderOnly t (t.addExtent a) ∧ Counts t (t.addExtent a) true 0 0 0 0 a := by
  refine ⟨.put t _ (by decide) (by decide),?_⟩
  constructor <;>
    simp [addExtent,put,isContiguous,isSimple,getDepth,flags,getDataSize,getExtent,getNumBlocks,getUnit]

theorem addNumBlocks_counts (n : ℕ) :
    HeaderOnly t (t.addNumBlocks (BitVec.ofNat 64 n)) ∧
      Counts t (t.addNumBlocks (BitVec.ofNat 64 n)) true 0 0 n 0 0 := by
  refine ⟨.put t _ (by decide) (by decide),?_⟩
  constructor <;>
    simp [addNumBlocks,put,isContiguous,isSimple,getDepth,flags,getDataSize,getExtent,getNumBlocks,getUnit]

theorem updateUnit_counts (w : Word) :
    HeaderOnly t (t.updateUnit w) ∧ Counts t (t.updateUnit w) true 0 0 0 w.toNat 0 := by
  have hunit : ∃ g, t.updateUnit w = t.put 48 g ∧ g.toNat=Nat.gcd t.getUnit.toNat w.toNat := by
    rw [updateUnit]
    by_cases hz : t.getUnit=0
    · exact ⟨w,by rw [if_pos hz],by simp [hz]⟩
    · refine ⟨_,by rw [if_neg hz],?_⟩
      have hle := Nat.gcd_le_left w.toNat (toNat_pos hz)
      have hlt := t.getUnit.isLt
      rw [toNat_ofNat,Nat.mod_eq_of_lt (by omega)]
  obtain ⟨g,he,hg⟩ := hunit
  rw [he]
  refine ⟨.put t _ (by decide) (by decide),?_⟩
  constructor <;>
    simp [put,isContiguous,isSimple,getDepth,flags,getDataSize,getExtent,getNumBlocks,getUnit,hg]

theorem updateDepth_counts (d : ℕ) (w : BitVec 32) (hw : d<2^32 → w.toNat=d) :
    HeaderOnly t (t.updateDepth w) ∧ Counts t (t.updateDepth w) true d 0 0 0 0 := by
  rw [updateDepth]
  by_cases hlt : t.getDepth<w
  · rw [if_pos hlt]
    refine ⟨.put t _ (by decide) (by decide),?_⟩
    constructor
    case depth =>
      intro hd
      have hl : t.getDepth.toNat<w.toNat := by simpa [lt_def] using hlt
      simp only [setFlags,put,getDepth,flags,update_self,Flags.unpack_pack]
      rw [← hw hd]
      exact (Nat.max_eq_right (by exact hl.le)).symm
    all_goals
      simp [setFlags,put,isContiguous,isSimple,flags,getDataSize,getExtent,getNumBlocks,getUnit]
  · rw [if_neg hlt]
    refine ⟨⟨rfl,rfl,rfl,fun _ _ => rfl⟩,?_⟩
    constructor
    case depth =>
      intro hd
      have hl : ¬ t.getDepth.toNat<w.toNat := by simpa [lt_def] using hlt
      rw [hw hd] at hl
      omega
    all_goals simp

end Header

section Steps

variable (t : TypeCode)

theorem word_mul_eq (a b : Word) : a*b = BitVec.ofNat 64 (b.toNat*a.toNat) := by
  rw [ofNat_mul,BitVec.mul_comm,BitVec.ofNat_toNat,BitVec.ofNat_toNat,setWidth_eq,setWidth_eq]

theorem word_ofNat (a : Word) : a = BitVec.ofNat 64 a.toNat := by
  rw [BitVec.ofNat_toNat,setWidth_eq]

theorem completeCopy_counts {pc : ℕ} {c : Copy} {prev : Opcode}
    (hprev : prevOf (t.code pc) = prev.code) (hb : t.code (pc+8) = c.bytes)
    (hs : t.code (pc+16) = c.stride) (hr : t.code (pc+24) = c.reps) :
    HeaderOnly t (t.completeCopy pc) ∧
      Counts t (t.completeCopy pc) (prev = .BEGIN) 0 (c.reps.toNat*c.bytes.toNat) c.reps.toNat
        c.bytes.toNat (c.stride*c.reps) := by
  have hsim : ∀ u, u=(if prevOf (t.code pc)≠Opcode.BEGIN.code then t.setSimple false
      else t) → HeaderOnly t u ∧ Counts t u (prev = .BEGIN) 0 0 0 0 0 := by
    rintro u rfl
    rw [hprev]
    by_cases hb : prev = .BEGIN
    · rw [if_neg (by simp [hb])]
      exact ⟨⟨rfl,rfl,rfl,fun _ _ => rfl⟩,by simpa [hb] using Counts.refl t⟩
    · rw [if_pos (fun he => hb (Opcode.code_injective he))]
      simpa [hb] using setSimple_counts t
  simp only [completeCopy,hb,hs,hr]
  obtain ⟨h1,k1⟩ := hsim _ rfl
  have hbyt := word_mul_eq c.bytes c.reps
  have hreps := word_ofNat c.reps
  rw [hbyt]
  obtain ⟨h2,k2⟩ := addDataSize_counts (if prevOf (t.code pc)≠Opcode.BEGIN.code then
    t.setSimple false else t) (c.reps.toNat*c.bytes.toNat)
  obtain ⟨h3,k3⟩ := addExtent_counts (addDataSize _ _) (c.stride*c.reps)
  obtain ⟨h4,k4⟩ := addNumBlocks_counts (addExtent _ _) c.reps.toNat
  obtain ⟨h5,k5⟩ := updateUnit_counts (addNumBlocks _ _) c.bytes
  rw [← hreps] at h4 k4
  refine ⟨h1.trans (h2.trans (h3.trans (h4.trans h5))),?_⟩
  simpa using k1.trans (k2.trans (k3.trans (k4.trans k5)))

theorem completeShift_counts (pc : ℕ) :
    HeaderOnly t (t.completeShift pc) ∧ Counts t (t.completeShift pc) false 0 0 0 0 (t.code (pc+8)) := by
  rw [completeShift]
  obtain ⟨h1,k1⟩ := setSimple_counts t
  obtain ⟨h2,k2⟩ := addExtent_counts (t.setSimple false) (t.code (pc+8))
  refine ⟨h1.trans h2,?_⟩
  have hcos := k1.trans k2
  simpa using hcos

theorem embedCode_spec (fresh : ℕ → Memory) (sub : TypeCode) {pc : ℕ} (hpc : 64≤pc)
    (hcur : pc+16≤t.codeCursor) :
    let u := (t.setSimple false).addCodeSize sub.getCodeSize
    let v := u.resizeCodeBuffer fresh u.getCodeSize.toNat
    let w := (v.put (pc+8) (BitVec.ofNat 64 (v.codeCursor-pc))).appendCode sub
    w.codeCursor=t.codeCursor+sub.getCodeSize.toNat ∧ w.completed=t.completed ∧
    w.getCodeSize=t.getCodeSize+sub.getCodeSize ∧
    (∀ i, 64 ≤ i → i<t.codeCursor → i≠pc+8 → w.code i = t.code i) ∧
    w.code (pc+8) = BitVec.ofNat 64 (t.codeCursor-pc) ∧
    (∀ i, i < sub.getCodeSize.toNat → w.code (t.codeCursor+i) = sub.code i) ∧
    Counts t w false 0 0 0 0 0 := by
  intro u v w
  have hvcur : v.codeCursor=t.codeCursor := by
    simp only [v,resizeCodeBuffer]
    split_ifs <;> rfl
  have hvco : v.completed=t.completed := by
    simp only [v,resizeCodeBuffer]
    split_ifs <;> rfl
  have hvcd (i : ℕ) (hi : i<t.codeCursor) : v.code i = u.code i := by
    simp only [v,resizeCodeBuffer]
    split_ifs
    · rfl
    · exact if_pos hi
  have huco (i : ℕ) (h8 : i≠8) (h16 : i≠16) : u.code i = t.code i := by
    simp only [u,addCodeSize,setSimple,setFlags,put]
    rw [update_of_ne h16,update_of_ne h8]
  have hwco (i : ℕ) (hi : i<t.codeCursor) (h8 : i≠pc+8) : w.code i = u.code i := by
    simp only [w,appendCode,put,hvcur]
    rw [if_neg (by omega),update_of_ne h8,hvcd i hi]
  have hfla : w.flags=(t.setSimple false).flags := by
    rw [flags,hwco 8 (by omega) (by omega)]
    simp [u,addCodeSize,put,flags]
  have hlow (i : ℕ) (hi : i<64) (h8 : i≠8) (h16 : i≠16) : w.code i = t.code i := by
    rw [hwco i (by omega) (by omega),huco i h8 h16]
  refine ⟨?_,hvco,?_,?_,?_,?_,?_⟩
  · show v.codeCursor+_ = _
    rw [hvcur]
  · rw [getCodeSize,hwco 16 (by omega) (by omega)]
    simp [u,addCodeSize,setSimple,setFlags,put,getCodeSize]
  · intro i hl hi h8
    rw [hwco i hi h8,huco i (by omega) (by omega)]
  · simp only [w,appendCode,put,hvcur]
    rw [if_neg (by omega),update_self]
  · intro i hi
    simp only [w,appendCode,put,hvcur]
    rw [if_pos (by omega),Nat.add_sub_cancel_left]
  · have hs := (setSimple_counts t).2
    constructor
    · exact hlow 0 (by decide) (by decide) (by decide)
    · rw [isContiguous,hfla]; exact hs.contiguous
    · rw [isSimple,hfla]; exact hs.simple
    · rw [getDepth,hfla]; exact hs.depth
    · rw [getDataSize,hlow 24 (by decide) (by decide) (by decide)]; simp [getDataSize]
    · rw [getExtent,hlow 32 (by decide) (by decide) (by decide)]; simp [getExtent]
    · rw [getNumBlocks,hlow 40 (by decide) (by decide) (by decide)]; simp [getNumBlocks]
    · rw [getUnit,hlow 48 (by decide) (by decide) (by decide)]; simp [getUnit]

theorem completeCall_spec (fresh : ℕ → Memory) (heap : Word → TypeCode) {pc : ℕ} {c : Call}
    {k : Code} (hpc : 64≤pc) (hcur : pc+16≤t.codeCursor)
    (ha : t.code (pc+8) = c.subType) (hs : t.code (pc+16) = c.stride)
    (hr : t.code (pc+24) = c.reps) (hrep : Represents (heap c.subType) k) :
    let w := t.completeCall fresh heap pc
    let sub := heap c.subType
    w.codeCursor=t.codeCursor+sub.getCodeSize.toNat ∧ w.completed=t.completed ∧
    w.getCodeSize=t.getCodeSize+sub.getCodeSize ∧
    (∀ i, 64 ≤ i → i<t.codeCursor → i≠pc+8 → w.code i = t.code i) ∧
    w.code (pc+8) = BitVec.ofNat 64 (t.codeCursor-pc) ∧
    (∀ i, i < sub.getCodeSize.toNat → w.code (t.codeCursor+i) = sub.code i) ∧
    Counts t w false (k.depth+1) (c.reps.toNat*k.size) (c.reps.toNat*k.numBlocks) k.unit
      (c.stride*c.reps) := by
  intro w sub
  obtain ⟨hcur',hcomp,hsz,hbel,hoff,hsub,k1⟩ := embedCode_spec t fresh (heap c.subType) hpc hcur
  have hw : w=t.completeCall fresh heap pc := rfl
  simp only [completeCall,ha,hs,hr] at hw
  generalize appendCode _ (heap c.subType)=v at *
  have hh := hrep.header
  have hda : (heap c.subType).getDataSize*c.reps=BitVec.ofNat 64 (c.reps.toNat*k.size) := by
    rw [show (heap c.subType).getDataSize=BitVec.ofNat 64 k.size from hh.dataSize,
      ofNat_mul,← word_ofNat,BitVec.mul_comm]
  have hblc : (heap c.subType).getNumBlocks*c.reps=BitVec.ofNat 64 (c.reps.toNat*k.numBlocks) := by
    rw [show (heap c.subType).getNumBlocks=BitVec.ofNat 64 k.numBlocks from hh.numBlocks,
      ofNat_mul,← word_ofNat,BitVec.mul_comm]
  have hdpt : k.depth+1<2^32 → ((heap c.subType).getDepth+1).toNat=k.depth+1 := by
    intro hd
    have he : (heap c.subType).getDepth.toNat=k.depth := hh.depth (by omega)
    rw [toNat_add,he]
    exact Nat.mod_eq_of_lt hd
  have hunit : (heap c.subType).getUnit.toNat=k.unit := hh.unit
  rw [hda,hblc] at hw
  obtain ⟨h2,k2⟩ := addDataSize_counts v (c.reps.toNat*k.size)
  obtain ⟨h3,k3⟩ := addExtent_counts (addDataSize _ _) (c.stride*c.reps)
  obtain ⟨h4,k4⟩ := updateDepth_counts (addExtent _ _) (k.depth+1) _ hdpt
  obtain ⟨h5,k5⟩ := addNumBlocks_counts (updateDepth _ _) (c.reps.toNat*k.numBlocks)
  obtain ⟨h6,k6⟩ := updateUnit_counts (addNumBlocks _ _) (heap c.subType).getUnit
  have hhea := h2.trans (h3.trans (h4.trans (h5.trans h6)))
  rw [← hw] at hhea
  refine ⟨hhea.cursor.trans hcur',hhea.completed.trans hcomp,hhea.codeSize.trans hsz,?_,?_,?_,?_⟩
  · intro i hl hi h8
    rw [hhea.code i hl,hbel i hl hi h8]
  · rw [hhea.code _ (by omega),hoff]
  · intro i hi
    rw [hhea.code _ (by omega),hsub i hi]
  · have hcos := k1.trans (k2.trans (k3.trans (k4.trans (k5.trans k6))))
    rw [← hw,hunit] at hcos
    simpa using hcos

end Steps

end PAMI.Datatype
