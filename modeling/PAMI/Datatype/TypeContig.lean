import PAMI.Datatype.Compilation

namespace PAMI.Datatype

open TypeCode Nat BitVec

open PAMI.Math (Layout)
open Stack

namespace TypeCode

/-- `PRIMITIVE_TYPE_BYTE`. -/
def primitiveByte : BitVec 6 := 0

/-- `SetAtomSize`, with its assertion; `none` also for the division by zero. -/
def setAtomSize (t : TypeCode) (atomSize : Word) : Option TypeCode :=
  if atomSize = 0 then none
  else if t.getUnit % atomSize = 0 then some (t.put 56 atomSize)
  else none

/-- `ULONG_MAX - ULONG_MAX % atom_size`. -/
def contigSize (atomSize : Word) : Word := BitVec.allOnes 64 - BitVec.allOnes 64 % atomSize

/-- `TypeContig(atom_size)`. -/
def contig (fresh : ℕ → Memory) (heap : Word → TypeCode) (atomSize : Word) : Option TypeCode :=
  if atomSize = 0 then none
  else
    let t := (init fresh).setPrimitive primitiveByte
    (addSimpleInternal (ops fresh) ((ops fresh).fuel t) t (contigSize atomSize) (contigSize atomSize) 1).bind fun t =>
        (t.complete fresh heap).bind fun t => t.setAtomSize atomSize

end TypeCode

def contigCode (size : Word) : Code := .copy ⟨size, size, 1⟩ .done

theorem contigSize_spec {atomSize : Word} (h : atomSize≠0) :
    contigSize atomSize ≠ 0 ∧ contigSize atomSize%atomSize = 0 := by
  have hpos := toNat_pos h
  have hlt := atomSize.isLt
  have hmod := mod_lt (2^64-1) hpos
  have hle := mod_le (2^64-1) atomSize.toNat
  have hnat : (contigSize atomSize).toNat=2^64-1-(2^64-1)%atomSize.toNat := by
    rw [contigSize,toNat_sub_of_le]
    · rw [toNat_umod,toNat_allOnes]
    · rw [le_def,toNat_umod,toNat_allOnes]
      exact hle
  constructor
  · intro h0
    rw [h0] at hnat
    simp only [show (0 : Word).toNat=0 from rfl] at hnat
    omega
  · apply eq_of_toNat_eq
    rw [toNat_umod,hnat,sub_mod_eq_zero_of_mod_eq]
    · rfl
    · exact (mod_mod _ _).symm

theorem Represents.put_atomSize {t : TypeCode} {c : Code} (h : Represents t c) (w : Word) :
    Represents (t.put 56 w) c := by
  have hcd (i : ℕ) (hi : i≠56) : (t.put 56 w).code i = t.code i := Function.update_of_ne hi _ _
  have hlim : (t.put 56 w).getCodeSize=t.getCodeSize := hcd 16 (by decide)
  refine ⟨h.completed,?_,?_,h.wf⟩
  · have hh := h.header
    constructor
    · rw [hcd 0 (by decide)]; exact hh.opcode
    · rw [hcd (0+8) (by decide)]; exact hh.contiguous
    · rw [hcd (0+8) (by decide)]; exact hh.simple
    · rw [hcd (0+8) (by decide)]; exact hh.depth
    · rw [hcd (0+24) (by decide)]; exact hh.dataSize
    · rw [hcd (0+32) (by decide)]; exact hh.extent
    · rw [hcd (0+40) (by decide)]; exact hh.numBlocks
    · rw [hcd (0+48) (by decide)]; exact hh.unit
  · rw [hlim]
    exact h.code.congr (fun i hi => hcd i (by omega))

theorem contig_represents (fresh : ℕ → Memory) (heap : Word → TypeCode) {atomSize : Word}
    (h : atomSize≠0) :
    ∃ t, contig fresh heap atomSize = some t ∧ Represents t (contigCode (contigSize atomSize)) := by
  obtain ⟨hne,hdvd⟩ := contigSize_spec h
  obtain ⟨s,hs⟩ : ∃ s, s=contigSize atomSize := ⟨_,rfl⟩
  rw [← hs] at hne hdvd ⊢
  obtain ⟨t0,ht0⟩ : ∃ t, t=(init fresh).setPrimitive primitiveByte := ⟨_,rfl⟩
  have href0 : Refines t0 [] := by
    rw [ht0,Refines.setPrimitive_iff]
    exact Refines.init fresh
  have hadd : addSimpleInternal (ops fresh) ((ops fresh).fuel t0) t0 s s 1 = some (t0.push fresh .COPY [s,s,1]) := by
    have hcrs : (ops fresh).fuel t0=63+1 := href0.cursor
    rw [hcrs,addSimpleInternal,if_neg (by decide),if_neg hne,
      if_neg (fun hc => absurd hc.2 (by decide)),href0.topCopy]
    rfl
  have href1 : Refines (t0.push fresh .COPY [s,s,1]) [.copy ⟨s,s,1⟩] := by
    refine (href0.push_iff fresh (.copy ⟨s,s,1⟩)).mpr (fun hgrow => ?_)
    have hbuf := href0.buffer
    simp only [codeSize,Instr.size,Instr.operands,List.length_cons,List.length_nil] at hgrow
    omega
  have hwf : Stack.WF (fun p => Represents (heap p) ((fun _ => .done) p)) [.copy ⟨s,s,1⟩] := by
    intro i hi
    obtain rfl : i = _ := by simpa using hi
    exact ⟨hne,by show (1 : Word)≠0; decide,fun _ => rfl⟩
  obtain ⟨u,hu,hrep⟩ := complete_represents fresh href1 hwf (by
    simp [codeSize,Instr.size,Instr.operands,subBytes])
  have hcd : ofInstrs (fun _ => .done) [.copy ⟨s,s,1⟩].reverse = contigCode s := rfl
  rw [hcd] at hrep
  have hunit : u.getUnit=s := by
    apply eq_of_toNat_eq
    have hh : u.getUnit.toNat=(contigCode s).unit := hrep.header.unit
    rw [hh]
    simp [contigCode,Code.unit,Code.blockLengths]
  refine ⟨u.put 56 atomSize,?_,hrep.put_atomSize atomSize⟩
  rw [contig,if_neg h]
  simp only [← ht0,← hs,hadd,Option.bind_some,hu]
  rw [setAtomSize,if_neg h,hunit,if_pos hdvd]

theorem contigCode_cell {s : Word} (h : s≠0) (o : ℕ) : (contigCode s).layout.cell o = (o : Word) := by
  have hpos := toNat_pos h
  have hcast : ((s.toNat : ℕ) : Word)=s := eq_of_toNat_eq (by simp)
  have hlay : (contigCode s).layout=Layout.block s.toNat s := by
    rw [contigCode,Code.layout_copy,show (1 : Word).toNat=1 from rfl,pow_one,Code.layout_done,mul_one]
  have hmod := mod_lt o hpos
  rw [hlay,Layout.cell,Layout.block_items_length,Layout.block_advance]
  have hget : (Layout.block s.toNat s).items.getD (o%s.toNat) 0=((o%s.toNat : ℕ) : Word) := by
    simp [Layout.block,List.getD,hmod]
  rw [hget,nsmul_eq_mul,← hcast,← cast_mul,← cast_add,hcast,Nat.mul_comm,div_add_mod]

theorem contigCode_window {s s' : Word} (h : s≠0) (h' : s'≠0) (o n : ℕ) :
    (contigCode s).layout.window o n = (contigCode s').layout.window o n := by
  simp only [Layout.window,contigCode_cell h,contigCode_cell h']

end PAMI.Datatype
