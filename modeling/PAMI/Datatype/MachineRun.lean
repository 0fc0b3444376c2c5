import PAMI.Datatype.MachineCopy

namespace PAMI.Datatype

open PAMI.Math.Layout List Option BitVec

open PAMI.Math (Layout)

section Position

variable {code : Memory} {lim : ℕ} {w : Prop} {cells : List Word} {cp : Copy}

theorem remaining_copy (cur : Cursor) (cp : Copy) (k : Code) (fs : List Frame) (pc : ℕ)
    (offset : Word) :
    (remaining ((cur, .copy cp k) :: fs)).items = repBlocks cp cur.disp (cp.reps.toNat-cur.repNum.toNat) ++
          (remaining ((⟨pc,endDisp cp cur,offset,0,0⟩, k) :: fs)).items ∧
      (remaining ((cur, .copy cp k) :: fs)).advance =
        (remaining ((⟨pc,endDisp cp cur,offset,0,0⟩, k) :: fs)).advance := by
  have hspl : frameBlocks (cur, .copy cp k) = shift cur.disp *
      Layout.run cp.bytes.toNat cp.stride^(cp.reps.toNat-cur.repNum.toNat)*k.blocks := by
    rw [frameBlocks,mul_assoc]
  have hadv : (shift cur.disp*Layout.run cp.bytes.toNat cp.stride ^
      (cp.reps.toNat-cur.repNum.toNat)).advance=endDisp cp cur := by
    simp [endDisp]
  have hite : (frameBlocks (cur, .copy cp k)).items=repBlocks cp cur.disp (cp.reps.toNat-cur.repNum.toNat) ++
        (shift (endDisp cp cur)*k.blocks).items := by
    rw [hspl,repBlocks_eq,mul_items _ k.blocks,hadv]
    simp
  have hadv' : (frameBlocks (cur, .copy cp k)).advance=(shift (endDisp cp cur)*k.blocks).advance := by
    rw [hspl,mul_advance,hadv]
    simp
  simp only [remaining,frameBlocks_start,hadv',hite]
  exact ⟨List.append_assoc _ _ _,trivial⟩

theorem cells_items (x : Layout (Layout.Extent Word) Word) :
    x.cells.items = x.items.flatMap Layout.Extent.cells := rfl

theorem cellsLeft_copy {cur : Cursor} (h : InCopy cp cur) (k : Code) (fs : List Frame) (pc : ℕ)
    (offset : Word) : cellsLeft (cur, .copy cp k) fs = repCells cp cur ++
      cellsLeft (⟨pc,endDisp cp cur,offset,0,0⟩, k) fs := by
  have hlen : cur.repBytes.toNat≤((repBlocks cp cur.disp
      (cp.reps.toNat-cur.repNum.toNat)).flatMap Layout.Extent.cells).length := by
    have hn : cp.reps.toNat-cur.repNum.toNat=cp.reps.toNat-(cur.repNum.toNat+1)+1 := by
      have := h.1
      omega
    have h2 := h.2
    rw [hn,repBlocks_succ,flatMap_cons,length_append,Layout.Extent.cells_length]
    show _ ≤ cp.bytes.toNat+_
    omega
  rw [cellsLeft,cellsLeft,cells_items,cells_items,(remaining_copy cur cp k fs pc offset).1,flatMap_append,
    drop_append_of_le_length hlen]
  rfl

theorem visits_spec {cur cur' : Cursor} {k : Code} {fs : List Frame}
    (h : Matches code lim w (cur, .copy cp k) fs) (hv : Visits cp cur cells cur') :
    ∃ k', Matches code lim w (cur', k') fs ∧ cells ++ cellsLeft (cur', k') fs = cellsLeft (cur, .copy cp k) fs ∧
      (remaining ((cur', k') :: fs)).advance=(remaining ((cur, .copy cp k) :: fs)).advance ∧
      (k' = .copy cp k ∧ cur'.pc=cur.pc ∨ k'=k ∧ cur'.pc=cur.pc+32) := by
  have hp := h.placed _ (mem_cons_self ..)
  have hfs : ∀ g ∈ fs, Placed code lim w g := fun g hg => h.placed g (by simp [hg])
  have hin : InCopy cp cur := h.inRange
  rcases hv with hadv | ⟨he,hcel⟩
  · refine ⟨.copy cp k,⟨?_,hadv.inCopy,h.waits⟩,?_,?_,.inl ⟨rfl,hadv.pc⟩⟩
    · intro g hg
      rcases mem_cons.mp hg with rfl | hg
      · exact hp.same_pc hadv.pc
      · exact hfs g hg
    · rw [cellsLeft_copy hin k fs 0 0,cellsLeft_copy hadv.inCopy k fs 0 0,hadv.endDisp,
        ← List.append_assoc,hadv.cells]
    · rw [(remaining_copy cur cp k fs 0 0).2,(remaining_copy cur' cp k fs 0 0).2,hadv.endDisp]
  · rw [he]
    refine ⟨k,⟨?_,inRange_start hp.wf.2.2.2 _ _ _,h.waits⟩,?_,?_,.inr ⟨rfl,rfl⟩⟩
    · intro g hg
      rcases mem_cons.mp hg with rfl | hg
      · exact hp.next_copy rfl
      · exact hfs g hg
    · rw [hcel,← cellsLeft_copy hin]
    · rw [← (remaining_copy cur cp k fs _ _).2]

/-- The stack is inside pass `q` of the layout, `j` cells of which are visited. -/
structure Tracks (code : Memory) (lim : ℕ) (w : Prop) (c : Code) (f : Frame) (fs : List Frame)
    (q j : ℕ) : Prop where
  frames : Matches code lim w f fs
  offset : f.1.offset = BitVec.ofNat 64 (q * c.size + j)
  le : j ≤ c.size
  cells : cellsLeft f fs = (c.layout.items.map (q • c.layout.advance + ·)).drop j
  advance : (remaining (f :: fs)).advance = (q + 1) • c.layout.advance

variable {c : Code} {f : Frame} {fs : List Frame} {q j : ℕ}

theorem Tracks.settle (hc : Placed code lim w (⟨64,0,0,0,0⟩, c)) (hpos : 0 < c.size)
    (h : Tracks code lim w c f fs q j) :
    ∃ g gs q' j' n, Settles code (f.1 :: fs.map Prod.fst) (g.1 :: gs.map Prod.fst) n ∧
      Tracks code lim w c g gs q' j' ∧ q'*c.size+j'=q*c.size+j ∧
      (∃ cp k, g.2 = .copy cp k) ∧ (f.1.repBytes=0 → g.1.repBytes=0) ∧
      ((remaining (f :: fs)).items ≠ [] → remaining (g :: gs) = remaining (f :: fs)) := by
  obtain ⟨g,gs,n,hs,hm,hoff,hcp,hres⟩ := PAMI.Datatype.settle hc hpos h.frames
  rcases hres with ⟨hrem,hrb⟩ | ⟨hnil,hrb,hrem⟩
  · refine ⟨g,gs,q,j,n,hs,⟨hm,hoff.trans h.offset,h.le,?_,?_⟩,rfl,hcp,
      fun h0 => hrb.trans h0,fun _ => hrem⟩
    · rw [← h.cells,cellsLeft,cellsLeft,hrem,hrb]
    · rw [hrem,h.advance]
  · -- nothing is left of the pass, so the next one starts here
    have hj : j=c.size := by
      have hl := congrArg List.length h.cells
      rw [cellsLeft,cells_items,hnil,length_drop,length_drop,length_map] at hl
      have hle := h.le
      simp only [Code.size] at hle ⊢
      simp at hl
      omega
    have hsum : (q+1)*c.size+0=q*c.size+j := by rw [hj]; ring
    refine ⟨g,gs,q+1,0,n,hs,⟨hm,?_,Nat.zero_le _,?_,?_⟩,hsum,hcp,fun _ => hrb,
      fun hne => absurd hnil hne⟩
    · rw [hoff,h.offset,hsum]
    · rw [cellsLeft,hrb,hrem,cells_mul,h.advance]
      simp [Code.layout,vadd_eq_add]
    · rw [hrem,mul_advance,shift_advance,h.advance,succ_nsmul _ (q+1)]
      rfl

theorem Tracks.visits {cur cur' : Cursor} {k : Code} (h : Tracks code lim w c (cur, .copy cp k) fs q j)
    (hv : Visits cp cur cells cur') (hoff : cur'.offset = cur.offset+BitVec.ofNat 64 cells.length) :
    ∃ k', Tracks code lim w c (cur', k') fs q (j+cells.length) ∧
      cells = c.layout.window (q*c.size+j) cells.length ∧
      (k' = .copy cp k ∧ cur'.pc=cur.pc ∨ k'=k ∧ cur'.pc=cur.pc+32) := by
  obtain ⟨k',hm,hcel,hadv,hk⟩ := visits_spec h.frames hv
  rw [h.cells] at hcel
  have hl := congrArg List.length hcel
  rw [length_append,length_drop,length_map] at hl
  have hle := h.le
  have hlen : j+cells.length ≤ c.layout.items.length := by
    simp only [Code.size] at hle
    omega
  refine ⟨k',⟨hm,?_,hlen,?_,hadv.trans h.advance⟩,?_,hk⟩
  · rw [hoff,h.offset,← ofNat_add,add_assoc]
  · rw [← drop_drop,← hcel,drop_left]
  · have hwin := c.layout.window_eq_pass q j cells.length hlen
    rw [← hcel,take_left] at hwin
    exact hwin.symm

end Position

section Run

variable {code : Memory} {lim : ℕ}

theorem execute_not_copy {cur : Cursor} {rest stack' : List Cursor}
    (h : execute code (cur :: rest) = some stack') :
    opcodeOf (code cur.pc) ≠ Opcode.COPY.code := by
  intro hop
  rw [execute,hop,if_neg (by decide),if_neg (by decide),if_neg (by decide)] at h
  cases h

theorem run_settles {s s' : List Cursor} {n : ℕ} (h : Settles code s s' n) (fuel target : ℕ)
    {bytes : ℕ} (hb : bytes≠0) :
    run code (fuel+n) target bytes s = run code fuel target bytes s' := by
  induction h with
  | refl => rfl
  | step hrb he _ ih =>
    rw [← add_assoc,run,if_neg hb]
    simp only [if_neg (execute_not_copy he),he,bind_some]
    exact ih

theorem moves_length (moves : List Move) :
    (moves.flatMap Move.cells).length=(moves.flatMap Move.targets).length := by
  induction moves with
  | nil => rfl
  | cons mv moves ih =>
    rw [flatMap_cons,flatMap_cons,length_append,length_append,ih,
      Move.cells,Move.targets,Layout.Extent.cells_length,length_range']

variable {c : Code}

theorem run_spec (hc : Placed code lim True (⟨64,0,0,0,0⟩, c)) (hpos : 0 < c.size)
    (bytes target : ℕ) {f : Frame} {fs : List Frame} {q j : ℕ}
    (h : Tracks code lim True c f fs q j) :
    ∃ moves g gs q' j' n, Tracks code lim True c g gs q' j' ∧ q'*c.size+j'=q*c.size+j+bytes ∧
      (∀ fuel, n≤fuel → run code fuel target bytes (f.1 :: fs.map Prod.fst) = some (moves, g.1 :: gs.map Prod.fst)) ∧
      moves.flatMap Move.targets = List.range' target bytes ∧
      moves.flatMap Move.cells = c.layout.window (q*c.size+j) bytes := by
  induction bytes using Nat.strong_induction_on generalizing target f fs q j with
  | _ bytes ih =>
    by_cases hz : bytes=0
    · refine ⟨[],f,fs,q,j,1,h,by omega,?_,by simp [hz],by simp [hz]⟩
      intro fuel hf
      obtain ⟨fuel,rfl⟩ : ∃ k, fuel=k+1 := ⟨fuel-1,by omega⟩
      rw [run,if_pos hz]
    · obtain ⟨⟨cur,k⟩,gs,q1,j1,n1,hs,htr,hsum,⟨cp,k,rfl⟩,-,-⟩ := h.settle hc hpos
      have hp := htr.frames.placed _ (mem_cons_self ..)
      obtain ⟨hop,⟨hb,hst,hr⟩,-,-⟩ := hp.code
      have hcopy : copyAt code cur.pc=cp := by rw [copyAt,hb,hst,hr]
      have hin : InCopy cp cur := htr.frames.inRange
      have hw := (hp.noWrap trivial).1
      have hlf := bytesLeft_toNat hin hw
      obtain ⟨left,hl⟩ : ∃ l, (cp.bytes*(cp.reps-cur.repNum)-cur.repBytes).toNat=l := ⟨_,rfl⟩
      have hlpos : 0<left := by
        have h1 := hin.1
        have h2 := hin.2
        have hge : cp.bytes.toNat≤(cp.reps.toNat-cur.repNum.toNat)*cp.bytes.toNat :=
          Nat.le_mul_of_pos_left _ (by omega)
        omega
      obtain ⟨moves,cur',hex,htgt,hoff,hvis⟩ := copy_exec_spec hin hw target
        (m := min left bytes) (by omega) (by rw [hl]; omega)
      have hlen : (moves.flatMap Move.cells).length=min left bytes := by rw [moves_length,htgt,length_range']
      rw [← hlen] at hoff
      obtain ⟨k',htr',hcel,-⟩ := htr.visits hvis hoff
      rw [hlen] at htr' hcel
      obtain ⟨moves',g,gs',q',j',n',htr'',hsum',hrun,htgt',hcel'⟩ :=
        ih (bytes-min left bytes) (by omega) (target+min left bytes) htr'
      refine ⟨moves ++ moves',g,gs',q',j',n'+1+n1,htr'',by omega,?_,?_,?_⟩
      · intro fuel hf
        obtain ⟨d,rfl⟩ : ∃ d, fuel=n'+d+1+n1 := ⟨fuel-(n'+1+n1),by omega⟩
        rw [run_settles hs _ _ hz,run,if_neg hz]
        simp only [if_pos hop,hcopy,hl,if_neg (show ¬ left=0 by omega),hex,bind_some]
        rw [hrun (n'+d) (by omega),map_some]
      · rw [flatMap_append,htgt,htgt',range'_append_1]
        congr 1
        omega
      · rw [flatMap_append,hcel,hcel',← hsum]
        have hadd : q1*c.size+(j1+min left bytes)=q1*c.size+j1+min left bytes := by omega
        rw [hadd,← window_add]
        congr 1
        omega

end Run

section Enumerate

variable {code : Memory} {lim : ℕ} {w : Prop} {cur : Cursor} {cp : Copy} {n : ℕ}

theorem enumerate_settles {s s' : List Cursor} (h : Settles code s s' n) (fuel : ℕ) {count : ℕ}
    (hb : count≠0) : enumerateLoop code (fuel+n) count s = enumerateLoop code fuel count s' := by
  induction h with
  | refl => rfl
  | step hrb he _ ih =>
    rw [← add_assoc,enumerateLoop,if_neg hb]
    simp only [hrb,ne_eq,not_true_eq_false,if_false,if_neg (execute_not_copy he),he,bind_some]
    exact ih

/-- The cursor behind `n` whole repetitions of a copy. -/
def skipReps (cp : Copy) (cur : Cursor) (n : ℕ) : Cursor :=
  let cur' := { cur with
    disp := cur.disp + n • cp.stride
    offset := cur.offset + cp.bytes * BitVec.ofNat 64 n
    repNum := cur.repNum + BitVec.ofNat 64 n }
  if cur'.repNum = cp.reps then { cur' with pc := cur'.pc + 32, repNum := 0 } else cur'

theorem skipReps_visits (hin : InCopy cp cur) (hz : cur.repBytes=0)
    (hn : n ≤ cp.reps.toNat-cur.repNum.toNat) :
    Visits cp cur ((repBlocks cp cur.disp n).flatMap Layout.Extent.cells) (skipReps cp cur n) ∧
      (skipReps cp cur n).repBytes=0 ∧
      (skipReps cp cur n).offset = cur.offset+BitVec.ofNat 64
        ((repBlocks cp cur.disp n).flatMap Layout.Extent.cells).length := by
  have h1 := hin.1
  have hr := cp.reps.isLt
  have hnat : (cur.repNum+BitVec.ofNat 64 n).toNat=cur.repNum.toNat+n := by
    rw [toNat_add,toNat_ofNat]
    omega
  have hlen : ((repBlocks cp cur.disp n).flatMap Layout.Extent.cells).length =
      n*cp.bytes.toNat := repBlocks_cells_length cp _ _
  have hoff : cur.offset+cp.bytes*BitVec.ofNat 64 n = cur.offset+BitVec.ofNat 64
      ((repBlocks cp cur.disp n).flatMap Layout.Extent.cells).length := by
    rw [hlen,ofNat_mul,← word_ofNat,BitVec.mul_comm]
  have hspl : repCells cp cur = (repBlocks cp cur.disp n).flatMap Layout.Extent.cells ++
      (repBlocks cp (cur.disp+n • cp.stride) (cp.reps.toNat-cur.repNum.toNat-n)).flatMap
        Layout.Extent.cells := by
    rw [repCells,hz,show (0 : Word).toNat=0 from rfl,drop_zero,← flatMap_append,← repBlocks_add]
    congr 2
    omega
  by_cases he : cur.repNum+BitVec.ofNat 64 n=cp.reps
  · have hall : cp.reps.toNat-cur.repNum.toNat=n := by
      rw [← he,hnat]
      omega
    have hskip : skipReps cp cur n =
        ⟨cur.pc+32,cur.disp+n • cp.stride,cur.offset+cp.bytes*BitVec.ofNat 64 n,0,0⟩ := by
      simp only [skipReps,he,if_true,hz]
    rw [hskip]
    refine ⟨.inr ⟨?_,?_⟩,rfl,hoff⟩
    · rw [endDisp,hall]
    · rw [hspl,hall,Nat.sub_self,repBlocks_zero,flatMap_nil,append_nil]
  · have hskip : skipReps cp cur n = ⟨cur.pc,cur.disp+n • cp.stride,
        cur.offset+cp.bytes*BitVec.ofNat 64 n,cur.repNum+BitVec.ofNat 64 n,0⟩ := by
      simp only [skipReps,he,if_false,hz]
    have hne : cur.repNum.toNat+n≠cp.reps.toNat := fun h => he (eq_of_toNat_eq (hnat.trans h))
    rw [hskip]
    have hlf : cp.reps.toNat-(cur.repNum.toNat+n)=cp.reps.toNat-cur.repNum.toNat-n := by omega
    refine ⟨.inl ⟨rfl,⟨?_,?_⟩,?_,?_⟩,rfl,hoff⟩
    · show (cur.repNum+BitVec.ofNat 64 n).toNat < cp.reps.toNat
      omega
    · have h2 := hin.2
      rw [hz] at h2
      exact h2
    · rw [hspl]
      show _ ++ ((repBlocks cp (cur.disp+n • cp.stride)
        (cp.reps.toNat-(cur.repNum+BitVec.ofNat 64 n).toNat)).flatMap Layout.Extent.cells).drop 0 = _
      rw [hnat,hlf,drop_zero]
    · show cur.disp+n • cp.stride+(cp.reps.toNat-(cur.repNum+BitVec.ofNat 64 n).toNat) • cp.stride = _
      rw [hnat,hlf,endDisp,add_assoc,← add_nsmul]
      congr 2
      omega

theorem skipReps_remaining (hin : InCopy cp cur) (hn : n ≤ cp.reps.toNat-cur.repNum.toNat)
    (hz : cur.repBytes=0) {k k' : Code} (fs : List Frame)
    (hk : k' = .copy cp k ∧ (skipReps cp cur n).pc=cur.pc ∨ k'=k ∧ (skipReps cp cur n).pc=cur.pc+32) :
    repBlocks cp cur.disp n ++ (remaining ((skipReps cp cur n, k') :: fs)).items =
      (remaining ((cur, .copy cp k) :: fs)).items := by
  have h1 := hin.1
  have hr := cp.reps.isLt
  have hnat : (cur.repNum+BitVec.ofNat 64 n).toNat=cur.repNum.toNat+n := by
    rw [toNat_add,toNat_ofNat]
    omega
  by_cases he : cur.repNum+BitVec.ofNat 64 n=cp.reps
  · have hall : cp.reps.toNat-cur.repNum.toNat=n := by
      rw [← he,hnat]
      omega
    have hskip : skipReps cp cur n =
        ⟨cur.pc+32,cur.disp+n • cp.stride,cur.offset+cp.bytes*BitVec.ofNat 64 n,0,0⟩ := by
      simp only [skipReps,he,if_true,hz]
    have hk' : k'=k := by
      rcases hk with ⟨-,hpc⟩ | ⟨hk,-⟩
      · rw [hskip] at hpc
        simp at hpc
      · exact hk
    have hend : cur.disp+n • cp.stride = endDisp cp cur := by rw [endDisp,hall]
    rw [hk',hskip,hend,(remaining_copy cur cp k fs _ _).1,hall]
  · have hskip : skipReps cp cur n = ⟨cur.pc,cur.disp+n • cp.stride,
        cur.offset+cp.bytes*BitVec.ofNat 64 n,cur.repNum+BitVec.ofNat 64 n,0⟩ := by
      simp only [skipReps,he,if_false,hz]
    have hk' : k' = .copy cp k := by
      rcases hk with ⟨hk,-⟩ | ⟨-,hpc⟩
      · exact hk
      · rw [hskip] at hpc
        simp at hpc
    have hsum : cp.reps.toNat-cur.repNum.toNat =
        n+(cp.reps.toNat-(cur.repNum+BitVec.ofNat 64 n).toNat) := by omega
    have hend : endDisp cp (skipReps cp cur n) = endDisp cp cur := by
      rw [hskip,endDisp,endDisp,hsum,add_nsmul,add_assoc]
    rw [hk',(remaining_copy cur cp k fs 0 0).1,(remaining_copy (skipReps cp cur n) cp k fs 0 0).1,
      hend,← List.append_assoc]
    congr 1
    rw [hskip,hsum,repBlocks_add]

theorem enumerateLoop_spec {c : Code} (hc : Placed code lim w (⟨64,0,0,0,0⟩, c))
    (hpos : 0 < c.size) (count : ℕ) {f : Frame} {fs : List Frame} {q j : ℕ}
    (h : Tracks code lim w c f fs q j) (hb : f.1.repBytes=0) :
    ∃ blocks g gs q' j' n, Tracks code lim w c g gs q' j' ∧ g.1.repBytes=0 ∧
      (∀ fuel, n≤fuel → enumerateLoop code fuel count (f.1 :: fs.map Prod.fst) =
        some (blocks, g.1 :: gs.map Prod.fst)) ∧
      blocks.length=count ∧ (∀ b ∈ blocks, 0<b.bytes) ∧
      q'*c.size+j'=q*c.size+j+(blocks.flatMap Layout.Extent.cells).length ∧
      blocks.flatMap Layout.Extent.cells = c.layout.window (q*c.size+j)
        (blocks.flatMap Layout.Extent.cells).length ∧
      (count≤(remaining (f :: fs)).items.length →
        blocks ++ (remaining (g :: gs)).items = (remaining (f :: fs)).items) := by
  induction count using Nat.strong_induction_on generalizing f fs q j with
  | _ count ih =>
    by_cases hz : count=0
    · refine ⟨[],f,fs,q,j,1,h,hb,?_,by simp [hz],by simp,by simp,by simp,fun _ => rfl⟩
      intro fuel hf
      obtain ⟨fuel,rfl⟩ : ∃ k, fuel=k+1 := ⟨fuel-1,by omega⟩
      rw [enumerateLoop,if_pos hz]
    · obtain ⟨⟨cur,k⟩,gs,q1,j1,n1,hs,htr,hsum,⟨cp,k,rfl⟩,hrb,hrem⟩ := h.settle hc hpos
      have hrb0 : cur.repBytes=0 := hrb hb
      have hp := htr.frames.placed _ (mem_cons_self ..)
      obtain ⟨hop,⟨hcb,hst,hr⟩,-,-⟩ := hp.code
      have hcopy : copyAt code cur.pc=cp := by rw [copyAt,hcb,hst,hr]
      have hin : InCopy cp cur := htr.frames.inRange
      have h1 := hin.1
      have hsub : (cp.reps-cur.repNum).toNat=cp.reps.toNat-cur.repNum.toNat :=
        toNat_sub_of_le (by rw [BitVec.le_def]; omega)
      obtain ⟨n,hn⟩ : ∃ n, n=min (cp.reps.toNat-cur.repNum.toNat) count := ⟨_,rfl⟩
      obtain ⟨hvis,hrb',hoff⟩ := skipReps_visits hin hrb0 (n := n) (by omega)
      obtain ⟨k',htr',hcel,hk⟩ := htr.visits hvis hoff
      obtain ⟨blocks,g,gs',q',j',n',htr'',hrb'',hrun,hlen,hbpos,hsum',hcel',hrs⟩ :=
        ih (count-n) (by omega) htr' hrb'
      refine ⟨repBlocks cp cur.disp n ++ blocks,g,gs',q',j',n'+1+n1,htr'',hrb'',?_,?_,?_,?_,?_,?_⟩
      · intro fuel hf
        obtain ⟨d,rfl⟩ : ∃ d, fuel=n'+d+1+n1 := ⟨fuel-(n'+1+n1),by omega⟩
        rw [enumerate_settles hs _ hz,enumerateLoop,if_neg hz]
        simp only [hrb0,ne_eq,not_true_eq_false,if_false,if_pos hop,hcopy,hsub,← hn,
          if_neg (show ¬ cp.reps.toNat-cur.repNum.toNat=0 by omega)]
        have hr' := hrun (n'+d) (by omega)
        simp only [skipReps,hrb0] at hr'
        rw [hr',map_some]
      · rw [length_append,repBlocks_length,hlen]
        omega
      · intro b hmem
        rcases mem_append.mp hmem with hmem | hmem
        · obtain ⟨i,-,rfl⟩ := List.mem_map.mp hmem
          exact toNat_pos hp.wf.1
        · exact hbpos b hmem
      · rw [flatMap_append,length_append,hsum']
        omega
      · rw [flatMap_append,length_append,window_add,← hsum,← hcel]
        congr 1
        rw [hcel']
        congr 1
        · omega
        · simp
      · intro hle
        have hne : (remaining (f :: fs)).items ≠ [] := by
          intro hnil
          rw [hnil] at hle
          exact hz (by simpa using hle)
        have hskip := skipReps_remaining hin (n := n) (by omega) hrb0 gs hk
        rw [hrem hne] at hskip
        rw [List.append_assoc,hrs,hskip]
        have hl := congrArg List.length hskip
        rw [length_append,repBlocks_length] at hl
        omega

end Enumerate

end PAMI.Datatype
