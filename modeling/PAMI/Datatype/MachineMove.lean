import PAMI.Datatype.MachineRun

namespace PAMI.Datatype

open PAMI.Math.Layout List BitVec

open PAMI.Math (Layout)

section Move

variable {code : Memory} {lim : ℕ} {w : Prop}

theorem remaining_split {s g : Frame} {x y : Layout (Layout.Extent Word) Word}
    (hs : frameBlocks s = x*y) (hg : frameBlocks g = shift x.advance*y)
    (fs : List Frame) :
    (remaining (s :: fs)).items = x.items ++ (remaining (g :: fs)).items ∧
      (remaining (s :: fs)).advance=(remaining (g :: fs)).advance := by
  have hadv : (frameBlocks s).advance=(frameBlocks g).advance := by
    rw [hs,hg]
    simp
  have hite : (frameBlocks s).items=x.items ++ (frameBlocks g).items := by
    rw [hs,hg]
    simp
  simp only [remaining,hadv,hite]
  exact ⟨List.append_assoc _ _ _,trivial⟩

theorem remaining_call_reps (sub : Code) (stride reps : Word) (k : Code) (fs : List Frame)
    (pc : ℕ) (disp offset offset' : Word) {r : Word} (hr : r.toNat ≤ reps.toNat) :
    (remaining ((⟨pc,disp,offset,0,0⟩, .call sub stride reps k) :: fs)).items =
        (shift disp*sub.blocks.withAdvance stride^r.toNat).items ++
          (remaining ((⟨pc,disp+stride*r,offset',r,0⟩, .call sub stride reps k) :: fs)).items ∧
      (remaining ((⟨pc,disp,offset,0,0⟩, .call sub stride reps k) :: fs)).advance =
        (remaining ((⟨pc,disp+stride*r,offset',r,0⟩, .call sub stride reps k) :: fs)).advance := by
  refine remaining_split (y := sub.blocks.withAdvance stride^(reps.toNat-r.toNat)*k.blocks) ?_ ?_ fs
  · have hpow : sub.blocks.withAdvance stride^reps.toNat = sub.blocks.withAdvance stride^r.toNat *
          sub.blocks.withAdvance stride^(reps.toNat-r.toNat) := by
      rw [← pow_add,Nat.add_sub_cancel' hr]
    rw [frameBlocks_start,Code.blocks,hpow,mul_assoc,mul_assoc]
  · have hadv : (shift disp*sub.blocks.withAdvance stride^r.toNat).advance=disp+stride*r := by
      rw [mul_advance,shift_advance,pow_advance,withAdvance_advance,toNat_nsmul,BitVec.mul_comm]
    rw [hadv]
    rfl

theorem cells_call_length (sub : Code) (stride disp : Word) (n : ℕ) :
    ((shift disp*sub.blocks.withAdvance stride^n).items.flatMap Layout.Extent.cells).length=n*sub.size := by
  rw [← cells_items,cells_mul,cells_pow,mul_items_length,pow_items_length]
  simp [Code.size,Code.layout]

theorem repCells_zero_length (cp : Copy) (pc : ℕ) (disp offset : Word) :
    (repCells cp ⟨pc,disp,offset,0,0⟩).length=cp.reps.toNat*cp.bytes.toNat := by
  rw [repCells,show ((0 : Word).toNat)=0 from rfl,drop_zero,repBlocks_cells_length,Nat.sub_zero]

theorem repetition_spec {bytes newOffset offset : Word} (reps : Word) (hb : 0<bytes.toNat)
    (hle : offset.toNat≤newOffset.toNat)
    (hlt : newOffset.toNat<offset.toNat+reps.toNat*bytes.toNat) :
    ∃ r b, (newOffset-offset)/bytes=r ∧ newOffset-offset-bytes*r=b ∧
      r.toNat*bytes.toNat+b.toNat=newOffset.toNat-offset.toNat ∧
      b.toNat<bytes.toNat ∧ r.toNat < reps.toNat := by
  have hdiff : (newOffset-offset).toNat=newOffset.toNat-offset.toNat :=
    toNat_sub_of_le (by rw [BitVec.le_def]; exact hle)
  have hdm := Nat.div_add_mod (newOffset.toNat-offset.toNat) bytes.toNat
  have hmod := Nat.mod_lt (newOffset.toNat-offset.toNat) hb
  have hrn : ((newOffset-offset)/bytes).toNat=(newOffset.toNat-offset.toNat)/bytes.toNat := by
    rw [toNat_udiv,hdiff]
  have hmul : (bytes*((newOffset-offset)/bytes)).toNat =
      bytes.toNat*((newOffset.toNat-offset.toNat)/bytes.toNat) := by
    have hlt64 := (newOffset-offset).isLt
    rw [toNat_mul_of_lt (by rw [hrn]; omega),hrn]
  refine ⟨_,_,rfl,rfl,?_,?_,?_⟩
  · rw [toNat_sub_of_le (by rw [BitVec.le_def,hmul,hdiff]; omega),hmul,hdiff,hrn,mul_comm]
    omega
  · rw [toNat_sub_of_le (by rw [BitVec.le_def,hmul,hdiff]; omega),hmul,hdiff]
    omega
  · rw [hrn]
    exact Nat.div_lt_of_lt_mul (by rw [mul_comm]; omega)

theorem repCells_drop {cp : Copy} {r : Word} (b : Word) (hr : r.toNat ≤ cp.reps.toNat) (pc : ℕ) (disp offset offset' : Word) :
    (repCells cp ⟨pc,disp,offset,0,0⟩).drop (r.toNat*cp.bytes.toNat+b.toNat) =
        repCells cp ⟨pc,disp+cp.stride*r,offset',r,b⟩ ∧
      endDisp cp ⟨pc,disp,offset,0,0⟩ = endDisp cp ⟨pc,disp+cp.stride*r,offset',r,b⟩ := by
  have hnsm : r.toNat • cp.stride=cp.stride*r := by rw [toNat_nsmul,BitVec.mul_comm]
  constructor
  · rw [repCells,repCells,show ((0 : Word).toNat)=0 from rfl,drop_zero,Nat.sub_zero,← drop_drop]
    congr 1
    have hspl := repBlocks_add cp disp r.toNat (cp.reps.toNat-r.toNat)
    rw [Nat.add_sub_cancel' hr,hnsm] at hspl
    rw [hspl,flatMap_append,← repBlocks_cells_length cp disp r.toNat,drop_left]
  · rw [endDisp,endDisp,show ((0 : Word).toNat)=0 from rfl,Nat.sub_zero,← hnsm,add_assoc,
      ← add_nsmul,Nat.add_sub_cancel' hr]

/-- The frame of a level that is about to run the code. -/
def startFrame (pc : ℕ) (disp offset : Word) (k : Code) : Frame := (⟨pc, disp, offset, 0, 0⟩, k)

/-- The position `MoveCursor` computes is that of the cells behind the ones it skips: the frames
it builds over the waiting ones have the same cells to visit as the start of the code, less the
first so many. -/
structure MovesTo (code : Memory) (lim : ℕ) (w : Prop) (newOffset : Word) (pc : ℕ)
    (disp offset : Word) (k : Code) (fs : List Frame) (f : Frame) (gs : List Frame) : Prop where
  placed : ∀ g ∈ f :: gs, Placed code lim w g
  inRange : InRange f
  waits : ∀ g ∈ gs, Waits g
  cursor : f.1.offset = newOffset
  cells : cellsLeft f (gs ++ fs) = (cellsLeft (startFrame pc disp offset k) fs).drop (newOffset.toNat - offset.toNat)
  advance : (remaining (f :: (gs ++ fs))).advance = (remaining (startFrame pc disp offset k :: fs)).advance

theorem MovesTo.skip {newOffset : Word} {pc pc' : ℕ} {disp disp' offset offset' : Word}
    {k k' : Code} {fs : List Frame} {f : Frame} {gs : List Frame} (skipped : List Word)
    (h : MovesTo code lim w newOffset pc' disp' offset' k' fs f gs)
    (hcel : cellsLeft (startFrame pc disp offset k) fs = skipped ++ cellsLeft (startFrame pc' disp' offset' k') fs)
    (hadv : (remaining (startFrame pc disp offset k :: fs)).advance =
      (remaining (startFrame pc' disp' offset' k' :: fs)).advance)
    (hoff : offset'.toNat=offset.toNat+skipped.length)
    (hle : offset'.toNat≤newOffset.toNat) :
    MovesTo code lim w newOffset pc disp offset k fs f gs := by
  refine ⟨h.placed,h.inRange,h.waits,h.cursor,?_,h.advance.trans hadv.symm⟩
  have hsum : newOffset.toNat-offset.toNat=skipped.length+(newOffset.toNat-offset'.toNat) := by omega
  rw [hcel,hsum,← drop_drop,drop_left,h.cells]

theorem cellsLeft_startFrame (pc : ℕ) (disp offset : Word) (k : Code) (fs : List Frame) :
    cellsLeft (startFrame pc disp offset k) fs =
      (remaining (startFrame pc disp offset k :: fs)).items.flatMap Layout.Extent.cells := rfl

theorem toNat_add_mul {o b r : Word} {n : ℕ} (hb : b.toNat=n)
    (hmax : o.toNat+r.toNat*n<2^64) : (o+b*r).toNat=o.toNat+r.toNat*n := by
  subst hb
  have hsi : (b*r).toNat=r.toNat*b.toNat := by rw [toNat_mul_of_lt (by rw [mul_comm]; omega),mul_comm]
  rw [toNat_add_of_lt (by rw [hsi]; omega),hsi]

/-- With enough fuel, `MoveCursor` puts the cursor at the offset from the start of the code. -/
def FindsOffset (code : Memory) (lim : ℕ) (w : Prop) (newOffset : Word) (pc : ℕ) (disp offset : Word)
    (k : Code) (fs : List Frame) : Prop :=
  ∃ f gs n, MovesTo code lim w newOffset pc disp offset k fs f gs ∧
    ∀ fuel, n ≤ fuel → moveLoop code newOffset fuel pc disp offset (fs.map Prod.fst) =
      some (f.1 :: (gs ++ fs).map Prod.fst)

section Instructions

variable {newOffset disp offset : Word} {pc : ℕ} {k : Code} {fs : List Frame}

section

variable {cp : Copy} (hp : Placed code lim w (startFrame pc disp offset (.copy cp k)))
include hp

theorem findsOffset_inCopy (hle : offset.toNat≤newOffset.toNat)
    (hcase : newOffset.toNat<offset.toNat+cp.reps.toNat*cp.bytes.toNat)
    (hmax : offset.toNat+cp.reps.toNat*cp.bytes.toNat<2^64) :
    FindsOffset code lim w newOffset pc disp offset (.copy cp k) fs := by
  have hcd : CodeAt code lim pc (.copy cp k) := hp.code
  obtain ⟨hop,⟨hb,hst,hr⟩,-,-⟩ := hcd
  have hcopy : copyAt code pc=cp := by rw [copyAt,hb,hst,hr]
  have hin' : newOffset<offset+cp.bytes*cp.reps := by
    rw [lt_def,toNat_add_mul rfl hmax]
    exact hcase
  have hbpos := toNat_pos hp.wf.1
  have hin : InCopy cp ⟨pc,disp,offset,0,0⟩ := ⟨toNat_pos hp.wf.2.1,hbpos⟩
  obtain ⟨r,b,hr',hb',hrb,hblt,hrlt⟩ := repetition_spec cp.reps hbpos hle hcase
  obtain ⟨hcel,hend⟩ := repCells_drop b hrlt.le pc disp offset newOffset
  have hinr : InCopy cp ⟨pc,disp+cp.stride*r,newOffset,r,b⟩ := ⟨hrlt,hblt⟩
  refine ⟨(⟨pc,disp+cp.stride*r,newOffset,r,b⟩, .copy cp k),[],1,⟨?_,hinr,by simp,rfl,?_,?_⟩,?_⟩
  · intro g hg
    obtain rfl : g = _ := by simpa using hg
    exact hp.same_pc rfl
  · rw [nil_append,startFrame,cellsLeft_copy hinr k fs 0 0,
      cellsLeft_copy hin k fs 0 0,← hend,← hcel,hrb,drop_append_of_le_length]
    rw [repCells_zero_length]
    omega
  · rw [nil_append,startFrame,(remaining_copy _ cp k fs 0 0).2,(remaining_copy _ cp k fs 0 0).2,hend]
  · intro fuel hf
    obtain ⟨fuel,rfl⟩ : ∃ d, fuel=d+1 := ⟨fuel-1,by omega⟩
    rw [moveLoop,if_pos hop]
    simp only [hcopy,if_pos hin',if_neg hp.wf.1,hr',hb']
    rfl

theorem findsOffset_pastCopy (hcase : offset.toNat+cp.reps.toNat*cp.bytes.toNat≤newOffset.toNat)
    (hmax : offset.toNat+cp.reps.toNat*cp.bytes.toNat<2^64)
    (hnx : FindsOffset code lim w newOffset (pc+32) (disp+cp.stride*cp.reps)
      (offset+cp.bytes*cp.reps) k fs) :
    FindsOffset code lim w newOffset pc disp offset (.copy cp k) fs := by
  have hcd : CodeAt code lim pc (.copy cp k) := hp.code
  obtain ⟨hop,⟨hb,hst,hr⟩,-,-⟩ := hcd
  have hcopy : copyAt code pc=cp := by rw [copyAt,hb,hst,hr]
  have hsum : (offset+cp.bytes*cp.reps).toNat =
      offset.toNat+cp.reps.toNat*cp.bytes.toNat := toNat_add_mul rfl hmax
  have hout : ¬ newOffset<offset+cp.bytes*cp.reps := by
    rw [lt_def,hsum]
    omega
  have hin : InCopy cp ⟨pc,disp,offset,0,0⟩ := ⟨toNat_pos hp.wf.2.1,toNat_pos hp.wf.1⟩
  have hend : endDisp cp ⟨pc,disp,offset,0,0⟩ = disp+cp.stride*cp.reps := by
    rw [endDisp,show ((0 : Word).toNat)=0 from rfl,Nat.sub_zero,toNat_nsmul,BitVec.mul_comm]
  obtain ⟨f,gs,n,hmove,hrun⟩ := hnx
  refine ⟨f,gs,n+1,hmove.skip (repCells cp ⟨pc,disp,offset,0,0⟩) ?_ ?_ ?_ (by omega),?_⟩
  · rw [startFrame,cellsLeft_copy hin k fs _ _,hend]
    rfl
  · rw [startFrame,(remaining_copy _ cp k fs _ _).2,hend]
    rfl
  · rw [repCells_zero_length,hsum]
  · intro fuel hf
    obtain ⟨fuel,rfl⟩ : ∃ d, fuel=d+1 := ⟨fuel-1,by omega⟩
    rw [moveLoop,if_pos hop]
    simp only [hcopy,if_neg hout]
    exact hrun fuel (by omega)

end

theorem findsOffset_shift {s : Word} (hp : Placed code lim w (startFrame pc disp offset (.shift s k)))
    (hle : offset.toNat≤newOffset.toNat)
    (hnx : FindsOffset code lim w newOffset (pc+16) (disp+s) offset k fs) :
    FindsOffset code lim w newOffset pc disp offset (.shift s k) fs := by
  have hcd : CodeAt code lim pc (.shift s k) := hp.code
  obtain ⟨hop,hs,-,-⟩ := hcd
  obtain ⟨f,gs,n,hmove,hrun⟩ := hnx
  have hrem : remaining (startFrame pc disp offset (.shift s k) :: fs) =
      remaining (startFrame (pc+16) (disp+s) offset k :: fs) := by
    have hb : frameBlocks (startFrame pc disp offset (.shift s k)) =
        frameBlocks (startFrame (pc+16) (disp+s) offset k) := by
      rw [startFrame,startFrame,frameBlocks_start,frameBlocks_start,Code.blocks,← mul_assoc,shift_mul_shift]
    rw [remaining,remaining,hb]
  refine ⟨f,gs,n+1,hmove.skip [] ?_ ?_ rfl hle,?_⟩
  · rw [cellsLeft_startFrame,hrem]
    rfl
  · rw [hrem]
  · intro fuel hf
    obtain ⟨fuel,rfl⟩ : ∃ d, fuel=d+1 := ⟨fuel-1,by omega⟩
    rw [moveLoop,hop,if_neg (by decide),if_neg (by decide),if_pos rfl,hs]
    exact hrun fuel (by omega)

section

variable {sub : Code} {stride reps : Word}
  (hp : Placed code lim w (startFrame pc disp offset (.call sub stride reps k)))
include hp

theorem call_dataSize (hmax : offset.toNat+reps.toNat*sub.size<2^64) :
    (code (pc+(code (pc+8)).toNat+24)).toNat=sub.size := by
  have hcd : CodeAt code lim pc (.call sub stride reps k) := hp.code
  obtain ⟨-,-,-,⟨hhea,-,-⟩,-⟩ := hcd
  have hsbl : sub.size ≤ reps.toNat*sub.size := Nat.le_mul_of_pos_left _ (toNat_pos hp.wf.1)
  rw [hhea.dataSize,toNat_ofNat,Nat.mod_eq_of_lt (by omega)]

theorem findsOffset_inCall (hle : offset.toNat≤newOffset.toNat)
    (hcase : newOffset.toNat<offset.toNat+reps.toNat*sub.size)
    (hmax : offset.toNat+reps.toNat*sub.size<2^64)
    (hsub : ∀ disp' offset' fs', offset'.toNat≤newOffset.toNat → newOffset.toNat<offset'.toNat+sub.size →
      offset'.toNat+sub.size<2^64 →
      FindsOffset code lim w newOffset (pc+(code (pc+8)).toNat+64) disp' offset' sub fs') :
    FindsOffset code lim w newOffset pc disp offset (.call sub stride reps k) fs := by
  have hcd : CodeAt code lim pc (.call sub stride reps k) := hp.code
  obtain ⟨hop,⟨hst,hr⟩,-,-,-⟩ := hcd
  obtain ⟨bytes,hbyt,hbn⟩ : ∃ b, b=code (pc+(code (pc+8)).toNat+24) ∧ b.toNat=sub.size :=
    ⟨_,rfl,call_dataSize hp hmax⟩
  have hin : newOffset<offset+bytes*reps := by
    rw [lt_def,toNat_add_mul hbn hmax]
    exact hcase
  have hspos : 0 < sub.size := Nat.pos_of_ne_zero (fun h0 => by
    rw [h0,Nat.mul_zero] at hcase
    omega)
  have hbne : bytes≠0 := by
    intro h0
    rw [h0] at hbn
    exact absurd hbn.symm (by simpa using hspos.ne')
  obtain ⟨r,b,hr',hb',hrS,hblt,hrlt⟩ := repetition_spec reps (by rw [hbn]; exact hspos)
    hle (by rw [hbn]; exact hcase)
  rw [hbn] at hrS hblt
  have hoff : (newOffset-b).toNat=newOffset.toNat-b.toNat := toNat_sub_of_le (by rw [BitVec.le_def]; omega)
  have hrS' : (r.toNat+1)*sub.size ≤ reps.toNat*sub.size := Nat.mul_le_mul_right _ hrlt
  rw [Nat.add_mul,Nat.one_mul] at hrS'
  obtain ⟨g,hg⟩ : ∃ g : Frame, g=(⟨pc,disp+stride*r,newOffset-b,r,0⟩, .call sub stride reps k) := ⟨_,rfl⟩
  have hgp : Placed code lim w g := by
    rw [hg]
    exact hp.same_pc rfl
  obtain ⟨f,gs,n,hmove,hrun⟩ := hsub (disp+stride*r) (newOffset-b) (g :: fs)
    (by omega) (by omega) (by omega)
  have hcall : remaining (startFrame (pc+(code (pc+8)).toNat+64) (disp+stride*r)
      (newOffset-b) sub :: g :: fs) = remaining (g :: fs) := by
    rw [hg]
    exact remaining_call ⟨pc,disp+stride*r,newOffset-b,r,0⟩ hrlt _ _
  obtain ⟨hite,hadv⟩ := remaining_call_reps sub stride reps k fs pc disp offset
    (newOffset-b) hrlt.le
  rw [← hg] at hite hadv
  have happ : (gs ++ [g]) ++ fs = gs ++ (g :: fs) := by simp
  refine ⟨f,gs ++ [g],n+1,⟨?_,hmove.inRange,?_,hmove.cursor,?_,?_⟩,?_⟩
  · intro x hx
    rw [← List.cons_append,mem_append,mem_singleton] at hx
    rcases hx with hx | rfl
    · exact hmove.placed x hx
    · exact hgp
  · intro x hx
    rw [mem_append,mem_singleton] at hx
    rcases hx with hx | rfl
    · exact hmove.waits x hx
    · rw [hg]
      exact ⟨sub,stride,reps,k,rfl,hrlt⟩
  · have hskip := cells_call_length sub stride disp r.toNat
    have hd : newOffset.toNat-(newOffset-b).toNat=b.toNat := by omega
    rw [happ,hmove.cells,cellsLeft_startFrame,cellsLeft_startFrame,hcall,startFrame,
      hite,flatMap_append,← hrS,← drop_drop,← hskip,drop_left,hd]
  · rw [happ,hmove.advance,hcall,← hadv]
    rfl
  · intro fuel hf
    obtain ⟨fuel,rfl⟩ : ∃ d, fuel=d+1 := ⟨fuel-1,by omega⟩
    rw [moveLoop,hop,if_neg (by decide),if_pos rfl]
    simp only [hst,hr,← hbyt,if_pos hin,if_neg hbne,hr',hb']
    rw [happ]
    have hr2 := hrun fuel (by omega)
    rw [map_cons,hg] at hr2
    rw [hr2,hg]

theorem findsOffset_pastCall (hcase : offset.toNat+reps.toNat*sub.size≤newOffset.toNat)
    (hmax : offset.toNat+reps.toNat*sub.size<2^64)
    (hnx : ∀ offset' : Word, offset'.toNat=offset.toNat+reps.toNat*sub.size →
      FindsOffset code lim w newOffset (pc+32) (disp+stride*reps) offset' k fs) :
    FindsOffset code lim w newOffset pc disp offset (.call sub stride reps k) fs := by
  have hcd : CodeAt code lim pc (.call sub stride reps k) := hp.code
  obtain ⟨hop,⟨hst,hr⟩,-,-,-⟩ := hcd
  obtain ⟨bytes,hbyt,hbn⟩ : ∃ b, b=code (pc+(code (pc+8)).toNat+24) ∧ b.toNat=sub.size :=
    ⟨_,rfl,call_dataSize hp hmax⟩
  have hsum : (offset+bytes*reps).toNat=offset.toNat+reps.toNat*sub.size := toNat_add_mul hbn hmax
  have hout : ¬ newOffset<offset+bytes*reps := by
    rw [lt_def,hsum]
    omega
  obtain ⟨f,gs,n,hmove,hrun⟩ := hnx (offset+bytes*reps) hsum
  obtain ⟨hite,hadv⟩ := remaining_call_reps sub stride reps k fs pc disp offset
    (offset+bytes*reps) (le_refl reps.toNat)
  -- a call at its last repetition has only the code behind it left
  have hla : remaining ((⟨pc,disp+stride*reps,offset+bytes*reps,reps,0⟩, .call sub stride reps k) :: fs) =
        remaining (startFrame (pc+32) (disp+stride*reps) (offset+bytes*reps) k :: fs) := by
    have hb : frameBlocks (⟨pc,disp+stride*reps,offset+bytes*reps,reps,0⟩, .call sub stride reps k) =
          frameBlocks (startFrame (pc+32) (disp+stride*reps) (offset+bytes*reps) k) := by
      rw [startFrame,frameBlocks_start,frameBlocks,Nat.sub_self,pow_zero,one_mul]
    rw [remaining,remaining,hb]
  rw [hla] at hite hadv
  refine ⟨f,gs,n+1,hmove.skip ((shift disp *
    sub.blocks.withAdvance stride^reps.toNat).items.flatMap Layout.Extent.cells) ?_ hadv ?_
    (by omega),?_⟩
  · rw [cellsLeft_startFrame,cellsLeft_startFrame,← flatMap_append,← hite]
    rfl
  · rw [cells_call_length,hsum]
  · intro fuel hf
    obtain ⟨fuel,rfl⟩ : ∃ d, fuel=d+1 := ⟨fuel-1,by omega⟩
    rw [moveLoop,hop,if_neg (by decide),if_pos rfl]
    simp only [hst,hr,← hbyt,if_neg hout]
    exact hrun fuel (by omega)

end

end Instructions

theorem moveLoop_spec (newOffset : Word) (k : Code) (pc : ℕ) (disp offset : Word)
    (fs : List Frame) (hp : Placed code lim w (startFrame pc disp offset k))
    (hle : offset.toNat≤newOffset.toNat) (hlt : newOffset.toNat<offset.toNat+k.size)
    (hmax : offset.toNat+k.size<2^64) :
    FindsOffset code lim w newOffset pc disp offset k fs := by
  induction k generalizing pc disp offset fs with
  | done =>
    rw [Code.size_done] at hlt
    omega
  | copy cp k ih =>
    rw [Code.size_copy] at hlt hmax
    by_cases hcase : newOffset.toNat<offset.toNat+cp.reps.toNat*cp.bytes.toNat
    · exact findsOffset_inCopy hp hle hcase (by omega)
    · have hsum : (offset+cp.bytes*cp.reps).toNat =
          offset.toNat+cp.reps.toNat*cp.bytes.toNat := toNat_add_mul rfl (by omega)
      exact findsOffset_pastCopy hp (by omega) (by omega) (ih (pc+32) _ _ fs (hp.next_copy rfl)
        (by omega) (by omega) (by omega))
  | shift s k ih =>
    rw [Code.size_shift] at hlt hmax
    exact findsOffset_shift hp hle (ih (pc+16) _ offset fs (hp.next_shift rfl) hle hlt hmax)
  | call sub stride reps k ihs ih =>
    rw [Code.size_call] at hlt hmax
    by_cases hcase : newOffset.toNat<offset.toNat+reps.toNat*sub.size
    · refine findsOffset_inCall hp hle hcase (by omega) fun disp' offset' fs' hle' hlt' hmax' => ?_
      exact ihs _ disp' offset' fs' (hp.sub_call rfl) hle' hlt' hmax'
    · refine findsOffset_pastCall hp (by omega) (by omega) fun offset' hsum => ?_
      exact ih (pc+32) _ offset' fs (hp.next_call rfl) (by omega) (by omega) (by omega)

end Move

end PAMI.Datatype
