import PAMI.Datatype.TypeContig
import PAMI.Math.Cuts

namespace PAMI.Composite

open PAMI.Math Datatype List Nat
open PAMI.Datatype (Word TypeCode Code Represents twoBlocks twoBlocksType)

def alignment : BitVec 32 := 0x200

def alignmentMask : BitVec 32 := ~~~(alignment - 1)

/-- The buffers `initialize` gives the executor of one color. -/
structure ColorExec where
  root : BitVec 32
  src : Word
  dst : Word
  len : BitVec 32
  stride : BitVec 32
  deriving DecidableEq

structure MultiColorCompositeT where
  numColors : BitVec 32
  nComplete : BitVec 32
  root : BitVec 32
  bytes : BitVec 32
  bytecounts : List (BitVec 32)
  strides : List (BitVec 32)
  executors : List ColorExec
  deriving DecidableEq

/-- `_numColors`, from what the function that selects the colors returned. -/
def colorCount (NUMCOLORS ncolors : BitVec 32) : BitVec 32 :=
  if NUMCOLORS < ncolors then NUMCOLORS else ncolors

/-- The share of one color, rounded down to the alignment; `total` counts bytes or is an extent. -/
def aligned (total : Word) (numColors : BitVec 32) : BitVec 32 :=
  if 1 < numColors then
    ((total / numColors.setWidth 64) &&& alignmentMask.setWidth 64).setWidth 32
  else 0

/-- The shares of all colors: the last one takes the rest. -/
def shares (total : Word) (numColors : BitVec 32) : List (BitVec 32) := (List.range numColors.toNat).map fun c =>
    if 1 < numColors then
      if c = numColors.toNat - 1 then
        (total - (aligned total numColors * (numColors - 1)).setWidth 64).setWidth 32
      else aligned total numColors
    else total.setWidth 32

/-- `initialize`; `ncolors` is what `pwcfn` returned for the topology and the number of bytes. -/
def initializeColors (NUMCOLORS ncolors root stypecount : BitVec 32) (stype : TypeCode)
    (src dst : Word) : MultiColorCompositeT :=
  let numColors := colorCount NUMCOLORS ncolors
  let bytes := stypecount.setWidth 64 * stype.getDataSize
  let extent := stypecount.setWidth 64 * stype.getExtent
  let bytecounts := shares bytes numColors
  let strides := shares extent numColors
  { numColors
    nComplete := numColors + 1
    root
    bytes := bytes.setWidth 32
    bytecounts
    strides
    executors := (List.range numColors.toNat).map fun c =>
      let off := (aligned extent numColors * BitVec.ofNat 32 c).setWidth 64
      ⟨root, src + off, dst + off, bytecounts.getD c 0, strides.getD c 0⟩ }

/-- The counts the allreduce composite gives to `setReduceInfo`. -/
def elementCounts (m : MultiColorCompositeT) (stype : TypeCode) : List (BitVec 32) :=
  m.bytecounts.map fun b => (b.setWidth 64 / stype.getDataSize).setWidth 32

/-- The cells of `len` bytes of a type in a buffer. -/
def bufferCells (code : Code) (base : Word) (len : ℕ) : List Word :=
  (List.range len).map fun p => base + code.layout.cell p

def srcCells (code : Code) (m : MultiColorCompositeT) : List (List Word) :=
  m.executors.map fun e => bufferCells code e.src e.len.toNat

def dstCells (code : Code) (m : MultiColorCompositeT) : List (List Word) :=
  m.executors.map fun e => bufferCells code e.dst e.len.toNat

def roundDown (n : ℕ) : ℕ := n / 512 * 512

theorem roundDown_le (n : ℕ) : roundDown n ≤ n := div_mul_le_self n 512

theorem and_alignmentMask {x : ℕ} (hx : x<2^32) : x &&& (2^32-2^9) = roundDown x := by
  have hmask : 2^32-2^9=(2^23-1) <<< 9 := by decide
  have hrou : roundDown x = (x >>> 9) <<< 9 := by rw [roundDown,shiftLeft_eq,shiftRight_eq_div_pow]
  rw [hmask,hrou]
  apply eq_of_testBit_eq
  intro i
  rw [testBit_and,testBit_shiftLeft,testBit_shiftLeft,testBit_two_pow_sub_one,testBit_shiftRight]
  by_cases hi : 9 ≤ i
  · obtain ⟨j,rfl⟩ := Nat.exists_eq_add_of_le hi
    by_cases hj : j<23
    · simp [hj]
    · have hbig : x<2^(9+j) := hx.trans_le (Nat.pow_le_pow_right zero_lt_two (by omega))
      simp [hj,testBit_lt_two_pow hbig]
  · simp [hi]

section Sizes

variable {total : Word} {numColors : BitVec 32}

theorem aligned_toNat (hn : 1<numColors.toNat) (htot : total.toNat<2^32) :
    (aligned total numColors).toNat = roundDown (total.toNat/numColors.toNat) := by
  have hgt : 1<numColors := BitVec.lt_def.mpr hn
  have hq : total.toNat/numColors.toNat<2^32 := (Nat.div_le_self _ _).trans_lt htot
  have hmask : (alignmentMask.setWidth 64).toNat=2^32-2^9 := by decide
  have hwid : (numColors.setWidth 64).toNat=numColors.toNat := by
    rw [BitVec.toNat_setWidth,mod_eq_of_lt (by have := numColors.isLt; omega)]
  rw [aligned,if_pos hgt,BitVec.toNat_setWidth,BitVec.toNat_and,BitVec.toNat_udiv,hwid,hmask,
    and_alignmentMask hq,mod_eq_of_lt ((roundDown_le _).trans_lt hq)]

theorem roundDown_mul_le (n k : ℕ) : roundDown (n/k)*k ≤ n :=
  (Nat.mul_le_mul_right k (roundDown_le _)).trans (div_mul_le_self n k)

theorem share_toNat (hn : 1<numColors.toNat) (htot : total.toNat<2^32) {c : ℕ}
    (hc : c<numColors.toNat) :
    ((shares total numColors).getD c 0).toNat =
      cutLength total.toNat (roundDown (total.toNat/numColors.toNat)) numColors.toNat c := by
  have hgt : 1<numColors := BitVec.lt_def.mpr hn
  have hget : (shares total numColors).getD c 0 =
      if c=numColors.toNat-1 then
        (total-(aligned total numColors*(numColors-1)).setWidth 64).setWidth 32
      else aligned total numColors := by
    rw [shares,getD_eq_getElem?_getD,List.getElem?_map,List.getElem?_range hc,
      Option.map_some,Option.getD_some,if_pos hgt]
  have hali := aligned_toNat hn htot
  have hle := roundDown_mul_le total.toNat numColors.toNat
  rw [hget]
  by_cases hla : c=numColors.toNat-1
  · have hpred : (numColors-1).toNat=numColors.toNat-1 := BitVec.toNat_sub_of_le (BitVec.le_def.mpr hn.le)
    have hmul : roundDown (total.toNat/numColors.toNat)*(numColors.toNat-1)≤total.toNat :=
      (Nat.mul_le_mul_left _ (sub_le _ _)).trans hle
    have hprod : ((aligned total numColors*(numColors-1)).setWidth 64).toNat =
        roundDown (total.toNat/numColors.toNat)*(numColors.toNat-1) := by
      rw [BitVec.toNat_setWidth,BitVec.toNat_mul,hali,hpred,mod_eq_of_lt (by omega),mod_eq_of_lt (by omega)]
    have hsub : (total-(aligned total numColors*(numColors-1)).setWidth 64).toNat =
        total.toNat-roundDown (total.toNat/numColors.toNat)*(numColors.toNat-1) := by
      rw [BitVec.toNat_sub_of_le (BitVec.le_def.mpr (hprod.trans_le hmul)),hprod]
    rw [if_pos hla,BitVec.toNat_setWidth,hsub,cutLength,if_pos (by omega),mod_eq_of_lt (by omega)]
  · rw [if_neg hla,hali,cutLength_of_lt (by omega)]

theorem shares_one (hn : numColors.toNat=1) (htot : total.toNat<2^32) :
    shares total numColors = [total.setWidth 32] ∧ (total.setWidth 32).toNat=total.toNat ∧
      aligned total numColors = 0 := by
  have hgt : ¬ 1<numColors := by
    intro h
    have hlt : 1<numColors.toNat := BitVec.lt_def.mp h
    omega
  refine ⟨?_,?_,if_neg hgt⟩
  · simp only [shares,hn,if_neg hgt,range_one,map_cons,map_nil]
  · rw [BitVec.toNat_setWidth,mod_eq_of_lt htot]

end Sizes

/-- The bytes of the type come in the order of their displacements, inside its extent. -/
structure Ascending (code : Code) : Prop where
  sorted : code.layout.items.Pairwise fun d e => d.toNat < e.toNat
  inside : ∀ d ∈ code.layout.items, d.toNat < code.layout.advance.toNat

/-- Where the message is cut, its layout goes on as it began. -/
def CutsEvenly (code : Code) (count numColors : ℕ) : Prop := (numColors = 0 → count * code.size = 0) ∧
  (1 < numColors → Repeats code.layout.cell (count * code.size) (roundDown (count * code.size / numColors))
    (roundDown (count * code.layout.advance.toNat / numColors) : Word))

section Cells

variable {code : Code} {count : ℕ}

theorem cell_split {p : ℕ} (hp : p < count*code.size) :
    ∃ q j, q < count ∧ ∃ h : j < code.layout.items.length, p=q*code.size+j ∧
      code.layout.cell p = q • code.layout.advance+code.layout.items[j] := by
  have hpos : 0 < code.size := Nat.pos_of_mul_pos_left (zero_lt_of_lt hp)
  have hj : p%code.size < code.layout.items.length := mod_lt p hpos
  have hp' : p=p/code.size*code.size+p%code.size := by rw [mul_comm,div_add_mod]
  refine ⟨p/code.size,p%code.size,Nat.div_lt_of_lt_mul (by rwa [mul_comm]),hj,hp',?_⟩
  conv_lhs => rw [hp']
  exact code.layout.cell_of_lt _ _ hj

section

variable (h : Ascending code) (hext : count * code.layout.advance.toNat < 2^32)
include h hext

theorem Ascending.cell_toNat {q j : ℕ} (hq : q < count) (hj : j < code.layout.items.length) :
    (q • code.layout.advance+code.layout.items[j]).toNat =
      q*code.layout.advance.toNat+code.layout.items[j].toNat ∧
    q*code.layout.advance.toNat+code.layout.items[j].toNat<(q+1)*code.layout.advance.toNat ∧
    (q+1)*code.layout.advance.toNat<2^32 := by
  have hin := h.inside _ (getElem_mem hj)
  have hle : (q+1)*code.layout.advance.toNat ≤ count*code.layout.advance.toNat := Nat.mul_le_mul_right _ hq
  have hsc : (q+1)*code.layout.advance.toNat =
      q*code.layout.advance.toNat+code.layout.advance.toNat := succ_mul _ _
  have hmul : (q • code.layout.advance).toNat=q*code.layout.advance.toNat := by
    rw [nsmul_eq_mul,BitVec.toNat_mul,BitVec.natCast_eq_ofNat,BitVec.toNat_ofNat,
      mod_mul_mod,mod_eq_of_lt (by omega)]
  refine ⟨?_,by omega,by omega⟩
  rw [BitVec.toNat_add,hmul,mod_eq_of_lt (by omega)]

theorem Ascending.cell_lt {p : ℕ} (hp : p < count*code.size) :
    (code.layout.cell p).toNat < count*code.layout.advance.toNat := by
  obtain ⟨q,j,hq,hj,-,hcell⟩ := cell_split hp
  obtain ⟨hnat,hlt,-⟩ := h.cell_toNat hext hq hj
  rw [hcell,hnat]
  exact hlt.trans_le (Nat.mul_le_mul_right _ hq)

theorem Ascending.increasing : Increasing (fun p => (code.layout.cell p).toNat) (count*code.size) := by
  intro p p' hlt hp'
  obtain ⟨q,j,hq,hj,hpq,hcell⟩ := cell_split (hlt.trans hp')
  obtain ⟨q',j',hq',hj',hpq',hcell'⟩ := cell_split hp'
  obtain ⟨hnat,hle,-⟩ := h.cell_toNat hext hq hj
  obtain ⟨hnat',-,-⟩ := h.cell_toNat hext hq' hj'
  have hjsi : j < code.size := hj
  have hjsi' : j' < code.size := hj'
  simp only [hcell,hcell',hnat,hnat']
  obtain hqq | rfl | hqq := lt_trichotomy q q'
  · have := Nat.mul_le_mul_right code.layout.advance.toNat (succ_le_of_lt hqq)
    rw [succ_eq_add_one] at this
    omega
  · have hjj : j<j' := by omega
    have := pairwise_iff_getElem.mp h.sorted j j' hj hj' hjj
    omega
  · have := Nat.mul_le_mul_right code.size (succ_le_of_lt hqq)
    rw [succ_mul] at this
    omega

end

end Cells

/-- The lists of cells the colors are to have, relative to the buffer. -/
def colorPieces (code : Code) (count n : ℕ) : List (List Word) :=
  (List.range n).map (piece code.layout.cell (count * code.size)
    (roundDown (count * code.size / n)) (roundDown (count * code.layout.advance.toNat / n) : Word) n)

section Initialize

variable {NUMCOLORS ncolors root stypecount : BitVec 32} {stype : TypeCode} {code : Code}
  {src dst : Word}

theorem bytes_toNat (h : Represents stype code) (hsi : stypecount.toNat*code.size<2^32) :
    (stypecount.setWidth 64*stype.getDataSize).toNat=stypecount.toNat*code.size := by
  have hda : stype.getDataSize=BitVec.ofNat 64 code.size := h.header.dataSize
  rw [hda,BitVec.toNat_mul,BitVec.toNat_ofNat,BitVec.toNat_setWidth,mul_mod_mod,
    mod_mul_mod,mod_eq_of_lt (by omega)]

theorem extent_toNat (h : Represents stype code)
    (hext : stypecount.toNat*code.layout.advance.toNat<2^32) :
    (stypecount.setWidth 64*stype.getExtent).toNat=stypecount.toNat*code.layout.advance.toNat := by
  have hadv : stype.getExtent=code.layout.advance := h.header.extent
  rw [hadv,BitVec.toNat_mul,BitVec.toNat_setWidth,mod_mul_mod,mod_eq_of_lt (by omega)]

section

variable {total : Word} {n : BitVec 32} {c : ℕ} (htot : total.toNat < 2^32) (hc : c < n.toNat)
include htot hc

theorem offset_eq : (aligned total n*BitVec.ofNat 32 c).setWidth 64 =
      c • (roundDown (total.toNat/n.toNat) : Word) := by
  have hcn : c<2^32 := hc.trans n.isLt
  by_cases hn : 1<n.toNat
  · have hle := roundDown_mul_le total.toNat n.toNat
    have hmul : roundDown (total.toNat/n.toNat)*c≤total.toNat := (Nat.mul_le_mul_left _ hc.le).trans hle
    apply BitVec.eq_of_toNat_eq
    rw [BitVec.toNat_setWidth,BitVec.toNat_mul,aligned_toNat hn htot,BitVec.toNat_ofNat,
      mod_eq_of_lt hcn,nsmul_eq_mul,← cast_mul,BitVec.natCast_eq_ofNat,
      BitVec.toNat_ofNat,mul_comm c,mod_eq_of_lt (by omega),mod_eq_of_lt (by omega),
      mod_eq_of_lt (by omega)]
  · obtain rfl : c=0 := by omega
    simp

theorem len_eq : ((shares total n).getD c 0).toNat =
      cutLength total.toNat (roundDown (total.toNat/n.toNat)) n.toNat c := by
  by_cases hn : 1<n.toNat
  · exact share_toNat hn htot hc
  · have hone : n.toNat=1 := by omega
    obtain ⟨hshs,hnat,-⟩ := shares_one hone htot
    obtain rfl : c=0 := by omega
    rw [hshs,hone,getD_cons_zero,hnat,cutLength_last,mul_zero,Nat.sub_zero]

end

theorem bufferCells_add (base off : Word) (len : ℕ) :
    bufferCells code (base+off) len = ((List.range len).map fun p => off+code.layout.cell p).map (base + ·) := by
  simp [bufferCells,BitVec.add_assoc]

variable (NUMCOLORS ncolors root stypecount src dst) in
theorem executors_cells (h : Represents stype code)
    (hsi : stypecount.toNat*code.size<2^32)
    (hext : stypecount.toNat*code.layout.advance.toNat<2^32) :
    srcCells code (initializeColors NUMCOLORS ncolors root stypecount stype src dst) =
        (colorPieces code stypecount.toNat (colorCount NUMCOLORS ncolors).toNat).map
          (List.map (src + ·)) ∧
      dstCells code (initializeColors NUMCOLORS ncolors root stypecount stype src dst) =
        (colorPieces code stypecount.toNat (colorCount NUMCOLORS ncolors).toNat).map
          (List.map (dst + ·)) := by
  have hb := bytes_toNat h hsi
  have he := extent_toNat h hext
  have hpart (base : Word) {c : ℕ} (hc : c<(colorCount NUMCOLORS ncolors).toNat) :
      bufferCells code (base+(aligned (stypecount.setWidth 64*stype.getExtent)
          (colorCount NUMCOLORS ncolors)*BitVec.ofNat 32 c).setWidth 64)
        ((shares (stypecount.setWidth 64*stype.getDataSize) (colorCount NUMCOLORS ncolors)).getD c 0).toNat =
      (piece code.layout.cell (stypecount.toNat*code.size)
        (roundDown (stypecount.toNat*code.size/(colorCount NUMCOLORS ncolors).toNat))
        (roundDown (stypecount.toNat*code.layout.advance.toNat/(colorCount NUMCOLORS ncolors).toNat) : Word)
        (colorCount NUMCOLORS ncolors).toNat c).map (base + ·) := by
    rw [offset_eq (he ▸ hext) hc,len_eq (hb ▸ hsi) hc,bufferCells_add,hb,he]
    rfl
  constructor
  · simp only [srcCells,initializeColors,colorPieces,map_map]
    apply map_congr_left
    intro c hc
    exact hpart src (mem_range.mp hc)
  · simp only [dstCells,initializeColors,colorPieces,map_map]
    apply map_congr_left
    intro c hc
    exact hpart dst (mem_range.mp hc)

end Initialize

section Pieces

variable {code : Code} {count n : ℕ}

theorem colorPieces_one :
    colorPieces code count 1 = [(List.range (count*code.size)).map code.layout.cell] := by
  simp [colorPieces,piece,cutLength]

theorem CutsEvenly.flatten (h : CutsEvenly code count n) :
    (colorPieces code count n).flatten = (List.range (count*code.size)).map code.layout.cell := by
  obtain rfl | rfl | hn : n=0 ∨ n=1 ∨ 1<n := by omega
  · rw [h.1 rfl]
    rfl
  · rw [colorPieces_one,flatten_singleton]
  · rw [colorPieces,← flatMap_def]
    exact (h.2 hn).flatMap (roundDown_mul_le _ _) (by omega)

theorem piece_toNat (hasc : Ascending code) (hext : count*code.layout.advance.toNat<2^32)
    {c : ℕ} (hc : c<n) :
    (piece code.layout.cell (count*code.size) (roundDown (count*code.size/n))
      (roundDown (count*code.layout.advance.toNat/n) : Word) n c).map BitVec.toNat =
    piece (fun p => (code.layout.cell p).toNat) (count*code.size)
      (roundDown (count*code.size/n)) (roundDown (count*code.layout.advance.toNat/n)) n c := by
  rw [piece,map_map]
  apply map_congr_left
  intro p hp
  have hend := cutLength_end (roundDown_mul_le (count*code.size) n) hc
  rw [mem_range] at hp
  have hcell := hasc.cell_lt hext (p := p) (by omega)
  have hle := roundDown_mul_le (count*code.layout.advance.toNat) n
  have hmul : c*roundDown (count*code.layout.advance.toNat/n) ≤ count*code.layout.advance.toNat := by
    rw [mul_comm]
    exact (Nat.mul_le_mul_left _ hc.le).trans hle
  simp only [Function.comp_apply,smul_eq_mul]
  rw [BitVec.toNat_add,nsmul_eq_mul,← cast_mul,BitVec.natCast_eq_ofNat,BitVec.toNat_ofNat,
    mod_eq_of_lt (by omega),mod_eq_of_lt (by omega)]

theorem repeats_of_toNat {B S total : ℕ}
    (h : Repeats (fun p => (code.layout.cell p).toNat) total B S) :
    Repeats code.layout.cell total B (S : Word) := by
  intro p hp
  have heq := h p hp
  apply BitVec.eq_of_toNat_eq
  have hlt := (code.layout.cell (B+p)).isLt
  rw [BitVec.toNat_add,BitVec.natCast_eq_ofNat,BitVec.toNat_ofNat,mod_add_mod,← heq,mod_eq_of_lt hlt]

theorem cutsEvenly_of_partitions (hasc : Ascending code)
    (hext : count*code.layout.advance.toNat<2^32)
    (h : Partitions (colorPieces code count n)
      ((List.range (count*code.size)).map code.layout.cell)) : CutsEvenly code count n := by
  constructor
  · rintro rfl
    by_contra hne
    have hmem := (h.2 (code.layout.cell 0)).mpr
      (mem_map_of_mem (mem_range.mpr (pos_of_ne_zero hne)))
    simp [colorPieces] at hmem
  · intro hn
    have hnat := (@Partitions.map_iff Word ℕ BitVec.toNat (fun _ _ => BitVec.eq_of_toNat_eq) _ _).mpr h
    have hpie : (colorPieces code count n).map (List.map BitVec.toNat) =
        (List.range n).map (piece (fun p => (code.layout.cell p).toNat) (count*code.size)
          (roundDown (count*code.size/n))
          (roundDown (count*code.layout.advance.toNat/n)) n) := by
      rw [colorPieces,map_map]
      apply map_congr_left
      intro c hc
      exact piece_toNat hasc hext (mem_range.mp hc)
    rw [hpie,map_map] at hnat
    exact repeats_of_toNat ((partitions_iff_repeats (hasc.increasing hext) (roundDown_mul_le _ _) hn).mp hnat)

end Pieces

def isPrimitive (t : TypeCode) : Bool := t.getPrimitive < TypeCode.primitiveCount

section Contiguous

variable {stype : TypeCode} {code : Code} {count n : ℕ}

theorem contiguous_code (h : Represents stype code) (hc : stype.isContiguous=true) :
    ∃ s : Word, s≠0 ∧ code = contigCode s := by
  have hcd : code.isContiguous=true := h.header.contiguous.symm.trans hc
  obtain ⟨⟨bytes,stride,reps⟩,rfl,hb,hr⟩ := Datatype.Code.eq_of_isContiguous hcd
  obtain rfl : bytes=stride := hb
  obtain rfl : reps=1 := hr
  exact ⟨bytes,h.wf.1,rfl⟩

theorem contigCode_layout (s : Word) : (contigCode s).layout = Layout.block s.toNat s := by
  rw [contigCode,Code.layout_copy,show (1 : Word).toNat=1 from rfl,pow_one,Code.layout_done,mul_one]

theorem contigCode_size (s : Word) : (contigCode s).size=s.toNat := by
  rw [Code.size,contigCode_layout,Layout.block_items_length]

theorem contigCode_advance (s : Word) : (contigCode s).layout.advance=s := by
  rw [contigCode_layout,Layout.block_advance]

theorem contigCode_cutsEvenly {s : Word} (hs : s≠0) (h0 : n=0 → count=0) :
    CutsEvenly (contigCode s) count n := by
  constructor
  · intro hn
    rw [h0 hn,zero_mul]
  · intro _ p _
    rw [contigCode_cell hs,contigCode_cell hs,contigCode_size,contigCode_advance,cast_add]

theorem contigCode_nodup {s : Word} (hs : s≠0) {total : ℕ} (htot : total<2^32) :
    ((List.range total).map (contigCode s).layout.cell).Nodup := by
  apply List.Nodup.map_on _ nodup_range
  intro p hp q hq heq
  rw [mem_range] at hp hq
  rw [contigCode_cell hs,contigCode_cell hs] at heq
  have hnat := congrArg BitVec.toNat heq
  rwa [BitVec.natCast_eq_ofNat,BitVec.natCast_eq_ofNat,BitVec.toNat_ofNat,BitVec.toNat_ofNat,
    mod_eq_of_lt (by omega),mod_eq_of_lt (by omega)] at hnat

end Contiguous

section Counts

variable {NUMCOLORS ncolors root stypecount : BitVec 32} {stype : TypeCode} {code : Code}
  {src dst : Word}

variable (NUMCOLORS ncolors root src dst) in
theorem elementCounts_toNat (h : Represents stype code) (hc : stype.isContiguous=true)
    (hsi : stypecount.toNat*code.size<2^32) :
    (elementCounts (initializeColors NUMCOLORS ncolors root stypecount stype src dst) stype).map
        BitVec.toNat =
      (List.range (colorCount NUMCOLORS ncolors).toNat).map fun c => cutLength (stypecount.toNat*code.size)
          (roundDown (stypecount.toNat*code.size/(colorCount NUMCOLORS ncolors).toNat))
          (colorCount NUMCOLORS ncolors).toNat c/code.size := by
  have hb := bytes_toNat h hsi
  have hda : stype.getDataSize.toNat=code.size := by
    obtain ⟨s,-,rfl⟩ := contiguous_code h hc
    have hd : stype.getDataSize=BitVec.ofNat 64 _ := h.header.dataSize
    have hlt := s.isLt
    rw [hd,contigCode_size,BitVec.toNat_ofNat,mod_eq_of_lt hlt]
  have hlen : (shares (stypecount.setWidth 64*stype.getDataSize)
      (colorCount NUMCOLORS ncolors)).length=(colorCount NUMCOLORS ncolors).toNat := by
    simp [shares]
  simp only [elementCounts,initializeColors,map_map]
  apply ext_getElem
  · simp [hlen]
  · intro c hc' _
    have hcn : c<(colorCount NUMCOLORS ncolors).toNat := by simpa [hlen] using hc'
    have hshr := len_eq (hb ▸ hsi) hcn
    rw [getD_eq_getElem?_getD,List.getElem?_eq_getElem (by rw [hlen]; exact hcn),Option.getD_some,hb] at hshr
    have hq := Nat.div_le_self (cutLength (stypecount.toNat*code.size)
      (roundDown (stypecount.toNat*code.size/(colorCount NUMCOLORS ncolors).toNat))
      (colorCount NUMCOLORS ncolors).toNat c) code.size
    have hlt := ((shares (stypecount.setWidth 64*stype.getDataSize)
      (colorCount NUMCOLORS ncolors)).get ⟨c,by rw [hlen]; exact hcn⟩).isLt
    rw [get_eq_getElem] at hlt
    simp only [getElem_map,getElem_range,Function.comp_apply]
    rw [BitVec.toNat_setWidth,BitVec.toNat_udiv,BitVec.toNat_setWidth,hda,hshr]
    rw [hshr] at hlt
    rw [@mod_eq_of_lt (cutLength _ _ _ _) _ (by omega),mod_eq_of_lt (by omega)]

end Counts

/-- The cells of a message of ascending type are shared out among the colors exactly if its layout goes on as it began where
the rounded number of bytes cuts it. The counts of the allreduce composite, of contiguous types, add up exactly if that
number is one of whole elements. -/
theorem colors_partition_iff (NUMCOLORS ncolors root stypecount : BitVec 32) (stype : TypeCode)
    (code : Code) (src dst : Word) (h : Represents stype code)
    (hsi : stypecount.toNat * code.size < 2^32)
    (hext : stypecount.toNat * code.layout.advance.toNat < 2^32) :
    let m := initializeColors NUMCOLORS ncolors root stypecount stype src dst
    let n := (colorCount NUMCOLORS ncolors).toNat
    let total := stypecount.toNat * code.size
    let shared := Partitions (srcCells code m) (bufferCells code src total) ∧
      Partitions (dstCells code m) (bufferCells code dst total)
    (((List.range total).map code.layout.cell).Nodup → CutsEvenly code stypecount.toNat n → shared) ∧
    (Ascending code → (shared ↔ CutsEvenly code stypecount.toNat n)) ∧
    (stype.isContiguous=true → isPrimitive stype=true →
      (shared ∧ ((elementCounts m stype).map BitVec.toNat).sum=stypecount.toNat ↔
        (n=0 → stypecount.toNat=0) ∧ (1<n → code.size ∣ roundDown (total / n)))) := by
  intro m n total shared
  have hcel := executors_cells NUMCOLORS ncolors root stypecount src dst h hsi hext
  have hbuf (base : Word) : bufferCells code base total =
      ((List.range total).map code.layout.cell).map (base + ·) := by
    simp [bufferCells]
  have hshi (base : Word) : Function.Injective (base + · : Word → Word) :=
    fun a b hab => (BitVec.add_right_inj base).mp hab
  have hsha : shared ↔ Partitions (colorPieces code stypecount.toNat n)
      ((List.range total).map code.layout.cell) := by
    simp only [shared,m]
    rw [hcel.1,hcel.2,hbuf,hbuf,Partitions.map_iff (hshi src),Partitions.map_iff (hshi dst),and_self]
  have hif (hnod : ((List.range total).map code.layout.cell).Nodup)
      (hcut : CutsEvenly code stypecount.toNat n) : shared :=
    hsha.mpr (.of_flatten hcut.flatten hnod)
  refine ⟨hif,?_,?_⟩
  · intro hasc
    constructor
    · intro hs
      exact cutsEvenly_of_partitions hasc hext (hsha.mp hs)
    · apply hif
      have hinc : (((List.range total).map code.layout.cell).map BitVec.toNat).Nodup := by
        rw [map_map]
        exact (hasc.increasing hext).nodup
      exact hinc.of_map
  · intro hc _
    have hcos := elementCounts_toNat NUMCOLORS ncolors root src dst h hc hsi
    obtain ⟨s,hs,rfl⟩ := contiguous_code h hc
    have hspos : 0<(contigCode s).size := by
      rw [contigCode_size]
      exact toNat_pos hs
    have hall (h0 : n=0 → stypecount.toNat=0) : shared :=
      hif (contigCode_nodup hs hsi) (contigCode_cutsEvenly hs h0)
    simp only [m]
    rw [hcos]
    obtain hn | hn := Nat.eq_zero_or_pos n
    · have hn' : (colorCount NUMCOLORS ncolors).toNat=0 := hn
      simp only [hn,hn',range_zero,map_nil,sum_nil,Nat.not_lt_zero,false_implies,and_true,true_implies]
      constructor
      · intro hs
        exact hs.2.symm
      · intro h0
        exact ⟨hall fun _ => h0,h0.symm⟩
    · have hsum := sum_cutLength_div (roundDown_mul_le total n) hn hspos
      constructor
      · intro hs
        refine ⟨fun h0 => absurd h0 hn.ne',fun h1 => ?_⟩
        exact (hsum.mp hs.2).resolve_left h1.ne'
      · intro hcond
        refine ⟨hall hcond.1,hsum.mpr ?_⟩
        obtain h1 | h1 : n=1 ∨ 1<n := by omega
        · exact Or.inl h1
        · exact Or.inr (hcond.2 h1)

theorem twoBlocks_ascending {code : Code}
    (h : code.layout = naive (fun _ => 1) twoBlocks) :
    Ascending code ∧ code.size=8 ∧ code.layout.advance=16 ∧ code.layout.cell 0 = 0 := by
  have hite : code.layout.items = [0,1,2,3,8,9,10,11] := by
    rw [h]
    decide
  have hadv : code.layout.advance=16 := by
    rw [h]
    decide
  refine ⟨⟨?_,?_⟩,?_,hadv,?_⟩
  · rw [hite]
    simp
  · rw [hite,hadv]
    simp
  · rw [Code.size,hite]
    simp
  · rw [h]
    decide

theorem colors_partition_iff_twoBlocks : ∃ code, Represents twoBlocksType code ∧
    (Partitions (srcCells code (initializeColors 2 2 0 128 twoBlocksType 0 4096)) (bufferCells code 0 1024) ∧
      Partitions (dstCells code (initializeColors 2 2 0 128 twoBlocksType 0 4096))
        (bufferCells code 4096 1024) ↔ CutsEvenly code 128 2) := by
  obtain ⟨code,hrep,hlay⟩ := twoBlocksType_compiled.represents
  obtain ⟨hasc,hsi,hadv,-⟩ := twoBlocks_ascending hlay
  have hnat : (16 : Word).toNat=16 := by decide
  have h := (colors_partition_iff 2 2 0 128 twoBlocksType code 0 4096 hrep
    (by rw [hsi]; decide) (by rw [hadv,hnat]; decide)).2.1 hasc
  rw [hsi] at h
  exact ⟨code,hrep,h⟩

/-- A hundred elements of eight bytes in an extent of sixteen, for two colors: 400 bytes round down
to none, 800 bytes of extent to 512, and the last color gets the whole message 512 bytes too far. -/
theorem colors_overlap : ∃ code, Represents twoBlocksType code ∧ ¬ Partitions
      (srcCells code (initializeColors 2 2 0 100 twoBlocksType 0 4096))
      (bufferCells code 0 800) := by
  obtain ⟨code,hrep,hlay⟩ := twoBlocksType_compiled.represents
  obtain ⟨hasc,hsi,hadv,hzr⟩ := twoBlocks_ascending hlay
  refine ⟨code,hrep,fun hpar => ?_⟩
  have hcel := (executors_cells 2 2 0 100 0 4096 hrep (by rw [hsi]; decide) (by rw [hadv]; decide)).1
  rw [hcel] at hpar
  have hcut : CutsEvenly code 100 2 := cutsEvenly_of_partitions hasc (by rw [hadv]; decide) (by
    rw [hsi]
    have hid : (fun x : Word => 0 + x)=id := by
      funext x
      simp
    simpa [bufferCells,hid,colorCount] using hpar)
  have hfir := hcut.2 (by decide) 0 (by rw [hsi]; decide)
  rw [hsi,hadv] at hfir
  have hB : roundDown (100 * 8 / 2)=0 := by decide
  have hS : roundDown (100 * (16 : Word).toNat / 2)=512 := by decide
  rw [hB,hS,zero_add,hzr] at hfir
  exact absurd hfir (by decide)

end PAMI.Composite
