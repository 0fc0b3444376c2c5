import Mathlib.Tactic.Ring
import PAMI.Datatype.TypeCode

set_option linter.unusedSectionVars false

namespace PAMI.Datatype

open Stack Function TypeCode

/-- The buffer holds the instructions of the stack, and the `prev_opcode` of each of them is the
opcode of the one below it. -/
@[grind =] def Holds (m : Memory) : Stack → Prop
  | [] => True
  | i :: st => opcodeOf (m (codeSize st)) = i.opcode.code ∧
      prevOf (m (codeSize st)) = (topOpcode st).code ∧
      fields m (codeSize st + 8) i.operands.length = i.operands ∧ Holds m st

/-- The header of a type under construction. -/
structure BlankHeader (t : TypeCode) : Prop where
  opcode : opcodeOf (t.code 0) = Opcode.BEGIN.code
  contiguous : t.isContiguous = true
  simple : t.isSimple = true
  depth : t.getDepth = 1
  dataSize : t.getDataSize = 0
  extent : t.getExtent = 0
  numBlocks : t.getNumBlocks = 0
  unit : t.getUnit = 0

/-- The code buffer refines the plain stack: every pushed instruction and the slot at the cursor
carry the opcode of the instruction immediately before. -/
structure Refines (t : TypeCode) (st : Stack) : Prop where
  cursor : t.codeCursor = st.codeSize
  slots : Holds t.code st
  link : prevOf (t.code st.codeSize) = st.topOpcode.code
  room : st.codeSize + 8 ≤ t.codeBufSize
  buffer : 192 ≤ t.codeBufSize
  codeSizeWord : t.getCodeSize = BitVec.ofNat 64 st.codeSize
  blank : BlankHeader t
  incomplete : t.completed = false

namespace Stack

theorem codeSize_ge (st : Stack) : 64+16*st.length ≤ st.codeSize := by
  induction st with
  | nil => simp [codeSize]
  | cons i st ih =>
    have hi := i.size_bounds
    simp only [codeSize,List.length_cons]
    omega

end Stack

theorem Holds.congr {m m' : Memory} {st : Stack} (h : Holds m st)
    (hm : ∀ i, 64 ≤ i → i < st.codeSize → m' i = m i) : Holds m' st := by
  induction st with
  | nil => trivial
  | cons i st ih =>
    obtain ⟨hop,hprev,hargs,hrs⟩ := h
    have hsi := codeSize_ge st
    have hword : m' (codeSize st) = m (codeSize st) := hm _ (by omega) (by simp only [codeSize,Instr.size]; omega)
    refine ⟨by rw [hword]; exact hop,by rw [hword]; exact hprev,?_,?_⟩
    · rw [fields_congr m m' _ _ (fun j hl hu => hm j (by omega) (by simp only [codeSize,Instr.size]; omega))]
      exact hargs
    · exact ih hrs (fun j hl hu => hm j hl (by simp only [codeSize]; omega))

namespace TypeCode

structure SameBuffer (t t' : TypeCode) : Prop where
  bufSize : t'.codeBufSize = t.codeBufSize
  allocs : t'.allocs = t.allocs

theorem SameBuffer.refl (t : TypeCode) : SameBuffer t t := ⟨rfl,rfl⟩

theorem SameBuffer.trans {t u v : TypeCode} (h : SameBuffer t u) (k : SameBuffer u v) :
    SameBuffer t v :=
  ⟨k.bufSize.trans h.bufSize,k.allocs.trans h.allocs⟩

section Push

variable (fresh : ℕ → Memory) (t : TypeCode) (op : Opcode) (operands : List Word)

def Grows (n : ℕ) : Prop := t.codeBufSize < t.codeCursor + (8 + 8 * n) + 8

instance (n : ℕ) : Decidable (t.Grows n) := inferInstanceAs (Decidable (_ < _))

/-- The word `Push` finds in the slot at the cursor. -/
def slotWord (n : ℕ) : Word :=
  if t.Grows n then fresh t.allocs t.codeCursor else t.code t.codeCursor

theorem checkCodeBuffer_code (n : ℕ) (hb : 0<t.codeBufSize) :
    (checkCodeBuffer fresh t ((8+8*n)+8)).code t.codeCursor = slotWord fresh t n ∧
    ∀ i, i<t.codeCursor → (checkCodeBuffer fresh t ((8+8*n)+8)).code i = t.code i := by
  have hd : ¬ t.codeBufSize*2≤t.codeBufSize := by omega
  by_cases hg : t.Grows n
  · have hg' : t.codeBufSize<t.codeCursor+(8+8*n+8) := by unfold Grows at hg; omega
    simp only [checkCodeBuffer,hg',if_true,resizeCodeBuffer,hd,if_false,slotWord,hg]
    refine ⟨by simp,?_⟩
    intro i hi
    simp [hi]
  · have hg' : ¬ t.codeBufSize<t.codeCursor+(8+8*n+8) := by unfold Grows at hg; omega
    simp [checkCodeBuffer,hg',slotWord,hg]

theorem checkCodeBuffer_fields (inc : ℕ) :
    (checkCodeBuffer fresh t inc).codeCursor=t.codeCursor ∧
    (checkCodeBuffer fresh t inc).completed=t.completed ∧
    (checkCodeBuffer fresh t inc).codeBufSize =
      if t.codeBufSize<t.codeCursor+inc then t.codeBufSize*2 else t.codeBufSize := by
  by_cases hg : t.codeBufSize<t.codeCursor+inc
  · by_cases hd : t.codeBufSize*2≤t.codeBufSize
    · have hzr : t.codeBufSize=0 := by omega
      simp [checkCodeBuffer,resizeCodeBuffer,hzr]
    · simp [checkCodeBuffer,resizeCodeBuffer,hg,hd]
  · simp [checkCodeBuffer,hg]

theorem push_cursor :
    (push fresh t op operands).codeCursor=t.codeCursor+(8+8*operands.length) := by
  simp [push,addCodeSize,put,(checkCodeBuffer_fields fresh t _).1]

theorem push_completed : (push fresh t op operands).completed=t.completed := by
  simp [push,addCodeSize,put,(checkCodeBuffer_fields fresh t _).2.1]

theorem push_bufSize :
    (push fresh t op operands).codeBufSize =
      if t.Grows operands.length then t.codeBufSize*2 else t.codeBufSize := by
  simp only [push,addCodeSize,put,(checkCodeBuffer_fields fresh t _).2.2,Grows,add_assoc]

variable (hc : 64 ≤ t.codeCursor) (hb : 0 < t.codeBufSize)
include hc hb

omit hc in
theorem push_below (i : ℕ) (hi : i<t.codeCursor) (h16 : i≠16) :
    (push fresh t op operands).code i = t.code i := by
  have hcur := (checkCodeBuffer_fields fresh t (8+8*operands.length+8)).1
  simp only [push,addCodeSize,put,hcur]
  rw [update_of_ne h16,update_of_ne (by omega),
    store_below _ _ _ _ hi,(checkCodeBuffer_code fresh t operands.length hb).2 i hi]

theorem push_word :
    (push fresh t op operands).code t.codeCursor = opWord op.code (prevOf (slotWord fresh t operands.length)) := by
  have hcur := (checkCodeBuffer_fields fresh t (8+8*operands.length+8)).1
  simp only [push,addCodeSize,put,hcur]
  rw [update_of_ne (by omega),update_of_ne (by omega),store,store_below _ _ _ _ (by omega),update_self,
    (checkCodeBuffer_code fresh t operands.length hb).1]

omit hb in
theorem push_operands :
    fields (push fresh t op operands).code (t.codeCursor+8) operands.length = operands := by
  have hcur := (checkCodeBuffer_fields fresh t (8+8*operands.length+8)).1
  simp only [push,addCodeSize,put,hcur,store]
  rw [fields_congr (store (update _ t.codeCursor _) (t.codeCursor+8) operands)]
  · exact fields_store _ _ _
  · intro i hl hu
    rw [update_of_ne (by omega),update_of_ne (by omega)]

omit hb in
theorem push_link :
    prevOf ((push fresh t op operands).code (t.codeCursor+(8+8*operands.length))) = op.code := by
  have hcur := (checkCodeBuffer_fields fresh t (8+8*operands.length+8)).1
  simp only [push,addCodeSize,put,hcur]
  rw [update_of_ne (by omega),update_self,prevOf_opWord]

theorem push_codeSize :
    (push fresh t op operands).getCodeSize = t.getCodeSize+BitVec.ofNat 64 (8+8*operands.length) := by
  have hcur := (checkCodeBuffer_fields fresh t (8+8*operands.length+8)).1
  simp only [push,addCodeSize,put,hcur,getCodeSize]
  rw [update_self,update_of_ne (by omega),store_below _ _ _ _ (by omega),
    (checkCodeBuffer_code fresh t operands.length hb).2 16 (by omega)]

end Push

end TypeCode

/-- The link of the slot survives the call that leaves the stack at the given one: if its last
instruction does not fit the buffer of `t`, the new buffer happens to hold, in the slot where
that instruction goes, the opcode of the instruction below. -/
def LinkKept (fresh : ℕ → Memory) (t : TypeCode) : Stack → Prop
  | [] => True
  | i :: st => t.codeBufSize < codeSize (i :: st) + 8 →
      prevOf (fresh t.allocs (codeSize st)) = (topOpcode st).code

namespace Refines

variable {t : TypeCode} {st : Stack}

theorem cursor_ge (h : Refines t st) : 64≤t.codeCursor := by
  have hs := codeSize_ge st
  rw [h.cursor]
  omega

theorem of_header {u : TypeCode} (h : Refines t st) (hcur : u.codeCursor=t.codeCursor)
    (hbuf : u.codeBufSize=t.codeBufSize) (hcomp : u.completed=t.completed)
    (hcd : ∀ i, i≠8 → u.code i = t.code i)
    (hfla : u.isContiguous=t.isContiguous ∧ u.isSimple=t.isSimple ∧ u.getDepth=t.getDepth) : Refines u st := by
  have hs := codeSize_ge st
  refine ⟨hcur.trans h.cursor,?_,?_,?_,?_,?_,?_,hcomp.trans h.incomplete⟩
  · exact h.slots.congr (fun i hl _ => hcd i (by omega))
  · rw [hcd _ (by omega)]
    exact h.link
  · rw [hbuf]
    exact h.room
  · rw [hbuf]
    exact h.buffer
  · simpa only [getCodeSize,hcd 16 (by decide)] using h.codeSizeWord
  · have hb := h.blank
    refine ⟨?_,hfla.1.trans hb.contiguous,hfla.2.1.trans hb.simple,hfla.2.2.trans hb.depth,?_,?_,?_,?_⟩
    · simpa only [hcd 0 (by decide)] using hb.opcode
    · simpa only [getDataSize,hcd 24 (by decide)] using hb.dataSize
    · simpa only [getExtent,hcd 32 (by decide)] using hb.extent
    · simpa only [getNumBlocks,hcd 40 (by decide)] using hb.numBlocks
    · simpa only [getUnit,hcd 48 (by decide)] using hb.unit

theorem setPrimitive_iff (p : BitVec 6) : Refines (t.setPrimitive p) st ↔ Refines t st := by
  have hcd (i : ℕ) (hi : i≠8) : (t.setPrimitive p).code i = t.code i := update_of_ne hi _ _
  have hfla : (t.setPrimitive p).flags = { t.flags with primitive := p } := by
    simp [setPrimitive,setFlags,put,flags]
  have hc : (t.setPrimitive p).isContiguous=t.isContiguous := by rw [isContiguous,hfla]; rfl
  have hsm : (t.setPrimitive p).isSimple=t.isSimple := by rw [isSimple,hfla]; rfl
  have hd : (t.setPrimitive p).getDepth=t.getDepth := by rw [getDepth,hfla]; rfl
  constructor
  · intro h
    exact h.of_header rfl rfl rfl (fun i hi => (hcd i hi).symm) ⟨hc.symm,hsm.symm,hd.symm⟩
  · intro h
    exact h.of_header rfl rfl rfl hcd ⟨hc,hsm,hd⟩

section

variable (h : Refines t st) (fresh : ℕ → Memory)
include h fresh

theorem push_parts (i : Instr) : let u := t.push fresh i.opcode i.operands
    u.codeCursor = codeSize (i :: st) ∧ Holds u.code st ∧
    opcodeOf (u.code (codeSize st))=i.opcode.code ∧
    prevOf (u.code (codeSize st)) = prevOf (t.slotWord fresh i.operands.length) ∧
    fields u.code (codeSize st+8) i.operands.length=i.operands ∧
    prevOf (u.code (codeSize (i :: st)))=i.opcode.code ∧
    codeSize (i :: st)+8≤u.codeBufSize ∧ 192≤u.codeBufSize ∧
    u.getCodeSize=BitVec.ofNat 64 (codeSize (i :: st)) ∧ BlankHeader u ∧
    u.completed=false := by
  have hc := h.cursor_ge
  have hb : 0<t.codeBufSize := by have := h.buffer; omega
  have hcur := h.cursor
  have hlow (j : ℕ) (hj : j<64) (h16 : j≠16) := t.push_below fresh i.opcode i.operands hb j (by omega) h16
  have hword := t.push_word fresh i.opcode i.operands hc hb
  have hsi : codeSize (i :: st)=t.codeCursor+(8+8*i.operands.length) := by rw [hcur]; rfl
  refine ⟨by rw [hsi]; exact t.push_cursor fresh _ _,?_,?_,?_,?_,?_,?_,?_,?_,?_,?_⟩
  · exact h.slots.congr (fun j hl hu => t.push_below fresh _ _ hb j (by omega) (by omega))
  · rw [← hcur,hword,opcodeOf_opWord]
  · rw [← hcur,hword,prevOf_opWord]
  · rw [← hcur]
    exact t.push_operands fresh _ _ hc
  · rw [hsi]
    exact t.push_link fresh _ _ hc
  · have hi := i.size_bounds
    have hrm := h.room
    have hbuf := h.buffer
    simp only [Instr.size] at hi
    rw [t.push_bufSize,hsi]
    by_cases hg : t.Grows i.operands.length
    · rw [if_pos hg]
      omega
    · rw [if_neg hg]
      unfold TypeCode.Grows at hg
      omega
  · have hbuf := h.buffer
    rw [t.push_bufSize]
    by_cases hg : t.Grows i.operands.length
    · rw [if_pos hg]
      omega
    · rw [if_neg hg]
      exact hbuf
  · rw [t.push_codeSize fresh _ _ hc hb,h.codeSizeWord,← BitVec.ofNat_add]
    rfl
  · have hbl := h.blank
    have h8 := hlow 8 (by decide) (by decide)
    refine ⟨?_,?_,?_,?_,?_,?_,?_,?_⟩
    · simpa only [hlow 0 (by decide) (by decide)] using hbl.opcode
    · simpa only [isContiguous,flags,h8] using hbl.contiguous
    · simpa only [isSimple,flags,h8] using hbl.simple
    · simpa only [getDepth,flags,h8] using hbl.depth
    · simpa only [getDataSize,hlow 24 (by decide) (by decide)] using hbl.dataSize
    · simpa only [getExtent,hlow 32 (by decide) (by decide)] using hbl.extent
    · simpa only [getNumBlocks,hlow 40 (by decide) (by decide)] using hbl.numBlocks
    · simpa only [getUnit,hlow 48 (by decide) (by decide)] using hbl.unit
  · rw [t.push_completed]
    exact h.incomplete

theorem push_iff (i : Instr) :
    Refines (t.push fresh i.opcode i.operands) (i :: st) ↔ LinkKept fresh t (i :: st) := by
  have hgrow : t.Grows i.operands.length ↔ t.codeBufSize < codeSize (i :: st)+8 := by
    simp only [TypeCode.Grows,h.cursor,codeSize,Instr.size]
  obtain ⟨hcur,hslo,hop,hprev,hargs,hlink,hrm,hbuf,hsz,hbla,hinc⟩ := h.push_parts fresh i
  have hfou : prevOf (t.slotWord fresh i.operands.length)=(topOpcode st).code ↔ LinkKept fresh t (i :: st) := by
    rw [LinkKept,slotWord,← hgrow]
    by_cases hg : t.Grows i.operands.length
    · simp [hg,h.cursor]
    · simp [hg,h.cursor,h.link]
  constructor
  · intro hr
    rw [← hfou,← hprev]
    exact hr.slots.2.1
  · intro hk
    refine ⟨hcur,⟨hop,?_,hargs,hslo⟩,hlink,hrm,hbuf,hsz,hbla,hinc⟩
    rw [hprev]
    exact hfou.mpr hk

omit h fresh in
theorem pop {i : Instr} (h : Refines t (i :: st)) : ∃ u, t.pop = some u ∧ Refines u st ∧ t.SameBuffer u := by
  have hs := codeSize_ge st
  have hpos := h.cursor_ge
  have hcur := h.cursor
  obtain ⟨hop,hprev,hargs,hrs⟩ := h.slots
  have hsi : opSize (prevOf (t.code t.codeCursor))=i.size := by
    rw [hcur,h.link]
    exact i.size_eq_opSize
  have hnew : t.codeCursor-i.size=codeSize st := by
    rw [hcur,codeSize]
    omega
  have hcd (j : ℕ) (hj : j≠16) (w : Word) : update t.code 16 w j = t.code j := update_of_ne hj _ _
  refine ⟨_,by rw [TypeCode.pop,if_pos (by omega)],?_,?_⟩
  · simp only [hsi,addCodeSize,put]
    refine ⟨hnew,?_,?_,?_,h.buffer,?_,?_,h.incomplete⟩
    · exact hrs.congr (fun j hl _ => hcd j (by omega) _)
    · simpa only [hcd (codeSize st) (by omega)] using hprev
    · have hr := h.room
      simp only [codeSize] at hr
      show codeSize st+8≤t.codeBufSize
      omega
    · have hz := h.codeSizeWord
      simp only [getCodeSize,codeSize,BitVec.ofNat_add] at hz ⊢
      rw [update_self,hz]
      ring
    · have hb := h.blank
      exact ⟨hb.opcode,hb.contiguous,hb.simple,hb.depth,hb.dataSize,hb.extent,hb.numBlocks,hb.unit⟩
  · exact ⟨rfl,rfl⟩

omit h fresh in
theorem top_self {i : Instr} (h : Refines t (i :: st)) :
    t.top i.opcode i.operands.length = some i.operands := by
  have hlink : prevOf (t.code t.codeCursor)=i.opcode.code := by
    rw [h.cursor]
    exact h.link
  have hoff : t.codeCursor-8*i.operands.length=codeSize st+8 := by
    rw [h.cursor,codeSize,Instr.size]
    omega
  rw [top,if_pos hlink,hoff,h.slots.2.2.1]

omit h fresh in
theorem top_other (h : Refines t st) (op : Opcode) (hop : topOpcode st ≠ op) (n : ℕ) : t.top op n = none := by
  rw [top,if_neg]
  rw [h.cursor,h.link]
  exact fun he => hop (Opcode.code_injective he)

theorem topShift : (TypeCode.ops fresh).topShift t = Stack.ops.topShift st := by
  rcases st with _ | ⟨_ | _ | s,st⟩
  case cons.shift =>
    have hs : t.top .SHIFT 1 = some [s] := h.top_self
    simp [TypeCode.ops,hs,Stack.ops]
  all_goals
    have hs := h.top_other .SHIFT (by simp [topOpcode,Instr.opcode]) 1
    simp [TypeCode.ops,hs,Stack.ops]

theorem topCopy : (TypeCode.ops fresh).topCopy t = Stack.ops.topCopy st := by
  rcases st with _ | ⟨c | _ | _,st⟩
  case cons.copy =>
    have hs : t.top .COPY 3 = some [c.bytes,c.stride,c.reps] := h.top_self
    simp [TypeCode.ops,hs,Stack.ops]
  all_goals
    have hs := h.top_other .COPY (by simp [topOpcode,Instr.opcode]) 3
    simp [TypeCode.ops,hs,Stack.ops]

theorem topCall : (TypeCode.ops fresh).topCall t = Stack.ops.topCall st := by
  rcases st with _ | ⟨_ | c | _,st⟩
  case cons.call =>
    have hs : t.top .CALL 3 = some [c.subType,c.stride,c.reps] := h.top_self
    simp [TypeCode.ops,hs,Stack.ops]
  all_goals
    have hs := h.top_other .CALL (by simp [topOpcode,Instr.opcode]) 3
    simp [TypeCode.ops,hs,Stack.ops]

end

theorem init (fresh : ℕ → Memory) : Refines (TypeCode.init fresh) [] := by
  rw [TypeCode.init,setPrimitive_iff]
  have hres : resizeCodeBuffer fresh ⟨fresh 0,0,0,false,0⟩ (64+32*4) = ⟨fresh 0,192,0,false,1⟩ := by
    simp [resizeCodeBuffer]
  have hche : checkCodeBuffer fresh ⟨fresh 0,192,0,false,1⟩ 72 = ⟨fresh 0,192,0,false,1⟩ := by
    simp [checkCodeBuffer]
  rw [hres]
  simp only [push,beginOperands,List.length_cons,List.length_nil,hche,
    store,zero_add,Nat.reduceAdd,Nat.reduceMul]
  refine ⟨rfl,trivial,?_,by simp [addCodeSize,put,codeSize], by simp [addCodeSize,put],?_,?_,rfl⟩
  · simp [addCodeSize,put,codeSize,topOpcode]
  · simp [addCodeSize,put,getCodeSize,codeSize]
  · constructor <;>
      simp [addCodeSize,put,isContiguous,isSimple,getDepth,flags,getDataSize,getExtent,getNumBlocks,getUnit]

end Refines

end PAMI.Datatype
