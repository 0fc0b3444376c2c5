import PAMI.Datatype.MachineInvariant

namespace PAMI.Datatype

open List Option BitVec

open PAMI.Math (Layout)

namespace Move

def targets (mv : Move) : List ℕ := List.range' mv.target mv.extent.bytes

def cells (mv : Move) : List Word := mv.extent.cells

end Move

section Reps

variable (cp : Copy)

theorem repBlocks_zero (disp : Word) : repBlocks cp disp 0 = [] := rfl

theorem repBlocks_succ (disp : Word) (n : ℕ) :
    repBlocks cp disp (n+1) = ⟨disp,cp.bytes.toNat⟩ :: repBlocks cp (disp+cp.stride) n := by
  rw [repBlocks,range_succ_eq_map,map_cons,List.map_map,repBlocks]
  congr 1
  · simp
  · apply map_congr_left
    intro i _
    simp only [Function.comp,Nat.succ_eq_add_one,succ_nsmul',add_assoc]

theorem repBlocks_add (disp : Word) (m n : ℕ) :
    repBlocks cp disp (m+n) = repBlocks cp disp m ++ repBlocks cp (disp+m • cp.stride) n := by
  induction m generalizing disp with
  | zero => simp [repBlocks_zero]
  | succ m ih => rw [add_right_comm,repBlocks_succ,ih,repBlocks_succ,List.cons_append,succ_nsmul',add_assoc]

theorem repBlocks_length (disp : Word) (n : ℕ) : (repBlocks cp disp n).length=n := by
  simp [repBlocks]

theorem repBlocks_cells_length (disp : Word) (n : ℕ) :
    ((repBlocks cp disp n).flatMap Layout.Extent.cells).length=n*cp.bytes.toNat := by
  induction n generalizing disp with
  | zero => simp [repBlocks_zero]
  | succ n ih =>
    rw [repBlocks_succ,flatMap_cons,length_append,ih,Layout.Extent.cells_length]
    ring

theorem repBlocks_eq (disp : Word) (n : ℕ) :
    repBlocks cp disp n = (Layout.shift disp*Layout.run cp.bytes.toNat cp.stride^n).items := by
  induction n generalizing disp with
  | zero => simp [repBlocks_zero]
  | succ n ih =>
    rw [repBlocks_succ,ih,pow_succ',← mul_assoc]
    have hfir : (Layout.shift disp*Layout.run cp.bytes.toNat cp.stride).items =
        [(⟨disp,cp.bytes.toNat⟩ : Layout.Extent Word)] := by
      simp only [Layout.mul_items,Layout.shift_items,Layout.shift_advance,nil_append,
        Layout.run,map_cons,map_nil,List.cons.injEq,and_true]
      exact Layout.Extent.ext (add_zero _) rfl
    have hspl : (Layout.shift disp*Layout.run cp.bytes.toNat cp.stride *
        Layout.run cp.bytes.toNat cp.stride^n).items =
          (Layout.shift disp*Layout.run cp.bytes.toNat cp.stride).items ++
            (Layout.run cp.bytes.toNat cp.stride^n).items.map ((disp+cp.stride) +ᵥ ·) := rfl
    rw [hspl,hfir]
    simp

def repCells (cur : Cursor) : List Word := ((repBlocks cp cur.disp (cp.reps.toNat - cur.repNum.toNat)).flatMap
    Layout.Extent.cells).drop cur.repBytes.toNat

def endDisp (cur : Cursor) : Word := cur.disp + (cp.reps.toNat - cur.repNum.toNat) • cp.stride

def InCopy (cur : Cursor) : Prop := cur.repNum.toNat < cp.reps.toNat ∧ cur.repBytes.toNat < cp.bytes.toNat

/-- From one cursor the copy visits the cells and gets to another one, inside the copy too. -/
structure Advances (cur : Cursor) (cells : List Word) (cur' : Cursor) : Prop where
  pc : cur'.pc = cur.pc
  inCopy : InCopy cp cur'
  cells : cells ++ repCells cp cur' = repCells cp cur
  endDisp : endDisp cp cur' = endDisp cp cur

def Visits (cur : Cursor) (cells : List Word) (cur' : Cursor) : Prop := Advances cp cur cells cur' ∨
    (cur' = ⟨cur.pc + 32, endDisp cp cur, cur'.offset, 0, 0⟩ ∧ cells = repCells cp cur)

variable {cp}

theorem Advances.trans {cur cur1 cur2 : Cursor} {cs cs' : List Word}
    (h : Advances cp cur cs cur1) (h' : Advances cp cur1 cs' cur2) :
    Advances cp cur (cs ++ cs') cur2 :=
  ⟨h'.pc.trans h.pc,h'.inCopy,by rw [List.append_assoc,h'.cells,h.cells],h'.endDisp.trans h.endDisp⟩

theorem Advances.visits {cur cur1 cur2 : Cursor} {cs cs' : List Word}
    (h : Advances cp cur cs cur1) (h' : Visits cp cur1 cs' cur2) :
    Visits cp cur (cs ++ cs') cur2 := by
  rcases h' with h' | ⟨he,hcel⟩
  · exact .inl (h.trans h')
  · refine .inr ⟨?_,?_⟩
    · rw [he,h.pc,h.endDisp]
    · rw [hcel,h.cells]

section

variable {cur : Cursor} (h : InCopy cp cur)
include h

theorem repCells_eq : repCells cp cur =
      (⟨cur.disp+cur.repBytes,cp.bytes.toNat-cur.repBytes.toNat⟩ : Layout.Extent Word).cells ++
        (repBlocks cp (cur.disp+cp.stride) (cp.reps.toNat-(cur.repNum.toNat+1))).flatMap
          Layout.Extent.cells := by
  have hcast : ((cur.repBytes.toNat : ℕ) : Word)=cur.repBytes := eq_of_toNat_eq (by simp)
  have hn : cp.reps.toNat-cur.repNum.toNat=cp.reps.toNat-(cur.repNum.toNat+1)+1 := by
    have := h.1
    omega
  have hdrop := Layout.Extent.cells_drop cur.disp h.2.le
  rw [hcast] at hdrop
  rw [repCells,hn,repBlocks_succ,flatMap_cons,drop_append_of_le_length,hdrop]
  simpa using h.2.le

theorem endDisp_eq : endDisp cp cur = cur.disp+cp.stride+(cp.reps.toNat-(cur.repNum.toNat+1)) • cp.stride := by
  have hn : cp.reps.toNat-cur.repNum.toNat=cp.reps.toNat-(cur.repNum.toNat+1)+1 := by
    have := h.1
    omega
  rw [endDisp,hn,succ_nsmul',add_assoc]

theorem repNum_succ : (cur.repNum+1).toNat=cur.repNum.toNat+1 := by
  have h1 := h.1
  have hlt := cp.reps.isLt
  exact toNat_add_of_lt (by simp; omega)

theorem advances_rep (hne : cur.repNum+1≠cp.reps) (offset : Word) : Advances cp cur
      (⟨cur.disp+cur.repBytes,cp.bytes.toNat-cur.repBytes.toNat⟩ : Layout.Extent Word).cells
      ⟨cur.pc,cur.disp+cp.stride,offset,cur.repNum+1,0⟩ := by
  have hsc := repNum_succ h
  have hlt : cur.repNum.toNat+1≠cp.reps.toNat := fun he => hne (eq_of_toNat_eq (hsc.trans he))
  have h1 := h.1
  have h2 := h.2
  refine ⟨rfl,⟨?_,?_⟩,?_,?_⟩
  · show (cur.repNum+1).toNat < cp.reps.toNat
    omega
  · show (0 : Word).toNat < cp.bytes.toNat
    simp
    omega
  · show _ ++ ((repBlocks cp (cur.disp+cp.stride)
      (cp.reps.toNat-(cur.repNum+1).toNat)).flatMap Layout.Extent.cells).drop 0 = _
    rw [hsc,drop_zero,repCells_eq h]
  · rw [endDisp_eq h,endDisp]
    simp only [hsc]

theorem advances_part {m : ℕ} (hm : cur.repBytes.toNat+m < cp.bytes.toNat) (offset : Word) :
    Advances cp cur (⟨cur.disp+cur.repBytes,m⟩ : Layout.Extent Word).cells
      ⟨cur.pc,cur.disp,offset,cur.repNum,cur.repBytes+BitVec.ofNat 64 m⟩ := by
  have hb := cp.bytes.isLt
  have hnat : (cur.repBytes+BitVec.ofNat 64 m).toNat=cur.repBytes.toNat+m := by
    rw [toNat_add,toNat_ofNat]
    omega
  have hin : InCopy cp ⟨cur.pc,cur.disp,offset,cur.repNum,cur.repBytes+BitVec.ofNat 64 m⟩ :=
    ⟨h.1,by show (cur.repBytes+BitVec.ofNat 64 m).toNat < _; omega⟩
  refine ⟨rfl,hin,?_,rfl⟩
  have hspl : cp.bytes.toNat-cur.repBytes.toNat=m+(cp.bytes.toNat-(cur.repBytes.toNat+m)) := by omega
  rw [repCells_eq h,repCells_eq hin,hspl,Layout.Extent.cells_add,List.append_assoc]
  simp only [hnat,add_assoc]
  rfl

theorem repCells_last (he : cur.repNum+1=cp.reps) : repCells cp cur =
        (⟨cur.disp+cur.repBytes,cp.bytes.toNat-cur.repBytes.toNat⟩ : Layout.Extent Word).cells ∧
      endDisp cp cur = cur.disp+cp.stride := by
  have hz : cp.reps.toNat-(cur.repNum.toNat+1)=0 := by rw [← he,repNum_succ h,Nat.sub_self]
  rw [repCells_eq h,endDisp_eq h,hz,repBlocks_zero]
  simp

theorem copyLast_spec (target : ℕ) {m : ℕ} (hm : m ≤ cp.bytes.toNat-cur.repBytes.toNat) :
    ∃ cur', copyLast cp target m cur = some (⟨target,⟨cur.disp+cur.repBytes,m⟩⟩, cur') ∧
      cur'.offset = cur.offset+BitVec.ofNat 64 m ∧
      Visits cp cur (⟨cur.disp+cur.repBytes,m⟩ : Layout.Extent Word).cells cur' := by
  have h2 := h.2
  have hb := cp.bytes.isLt
  have hsub : (cp.bytes-cur.repBytes).toNat=cp.bytes.toNat-cur.repBytes.toNat :=
    toNat_sub_of_le (by rw [le_def]; omega)
  have hnat : (cur.repBytes+BitVec.ofNat 64 m).toNat=cur.repBytes.toNat+m := by
    rw [toNat_add,toNat_ofNat]
    omega
  rw [copyLast,hsub,if_pos hm]
  by_cases he : cur.repBytes.toNat+m=cp.bytes.toNat
  · have hword : cur.repBytes+BitVec.ofNat 64 m=cp.bytes := eq_of_toNat_eq (hnat.trans he)
    have hall : cp.bytes.toNat-cur.repBytes.toNat=m := by omega
    simp only [hword,if_true]
    by_cases hla : cur.repNum+1=cp.reps
    · obtain ⟨hcel,hend⟩ := repCells_last h hla
      refine ⟨_,rfl,by rw [if_pos hla],.inr ⟨?_,?_⟩⟩
      · rw [if_pos hla,hend]
      · rw [hcel,hall]
    · refine ⟨_,rfl,by rw [if_neg hla],.inl ?_⟩
      rw [if_neg hla]
      have hadv := advances_rep h hla (cur.offset+BitVec.ofNat 64 m)
      rw [hall] at hadv
      exact hadv
  · have hword : ¬ cur.repBytes+BitVec.ofNat 64 m=cp.bytes := fun hw => by
      rw [← hw,hnat] at he
      exact he rfl
    simp only [hword,if_false]
    exact ⟨_,rfl,rfl,.inl (advances_part h (by omega) _)⟩

omit h in
theorem copyReps_spec (fuel : ℕ) {cur : Cursor} (h : InCopy cp cur) (hz : cur.repBytes=0) (target m : ℕ)
    (hpos : 0 < m) (hm : m≤(cp.reps.toNat-cur.repNum.toNat)*cp.bytes.toNat) (hf : m≤fuel) :
    ∃ moves target' m' cur', copyReps cp fuel target m cur = some (moves, target', m', cur') ∧
      0 < m' ∧ m' ≤ cp.bytes.toNat ∧ target'+m'=target+m ∧ cur'.repBytes=0 ∧
      moves.flatMap Move.targets ++ List.range' target' m' = List.range' target m ∧
      cur'.offset+BitVec.ofNat 64 m' = cur.offset+BitVec.ofNat 64 m ∧
      Advances cp cur (moves.flatMap Move.cells) cur' := by
  induction fuel generalizing cur target m with
  | zero => omega
  | succ fuel ih =>
    rw [copyReps]
    have h2 := h.2
    by_cases hlt : cp.bytes.toNat < m
    · rw [if_pos hlt]
      have hsc := repNum_succ h
      have hone : cp.reps.toNat-cur.repNum.toNat=cp.reps.toNat-(cur.repNum.toNat+1)+1 := by
        have := h.1
        omega
      rw [hone,Nat.add_mul,Nat.one_mul] at hm
      have hne : cur.repNum+1≠cp.reps := by
        intro he
        rw [← he,hsc,Nat.sub_self,Nat.zero_mul] at hm
        omega
      have hadv := advances_rep h hne (cur.offset+cp.bytes)
      rw [hz,add_zero,show (0 : Word).toNat=0 from rfl,Nat.sub_zero] at hadv
      obtain ⟨moves,target',m',cur',hrun,hpos',hle,htgt,hz',hrng,hoff,hvis⟩ :=
        ih hadv.inCopy rfl (target+cp.bytes.toNat) (m-cp.bytes.toNat) (by omega)
          (by show _ ≤ (cp.reps.toNat-(cur.repNum+1).toNat)*_; rw [hsc]; omega)
          (by omega)
      have hcur : ({ cur with
          disp := cur.disp+cp.stride
          offset := cur.offset+cp.bytes
          repNum := cur.repNum+1 } : Cursor) =
          ⟨cur.pc,cur.disp+cp.stride,cur.offset+cp.bytes,cur.repNum+1,0⟩ := by
        rw [hz]
      have hsum : m=cp.bytes.toNat+(m-cp.bytes.toNat) := by omega
      refine ⟨⟨target,⟨cur.disp,cp.bytes.toNat⟩⟩ :: moves,target',m',cur',?_,hpos',hle,
        by omega,hz',?_,?_,?_⟩
      · rw [hcur,hrun,map_some]
      · rw [flatMap_cons,List.append_assoc,hrng,hsum,Nat.add_sub_cancel_left]
        exact range'_append_1
      · rw [hoff,hsum,Nat.add_sub_cancel_left,ofNat_add,← add_assoc,← word_ofNat]
      · rw [flatMap_cons]
        exact hadv.trans hvis
    · rw [if_neg hlt]
      exact ⟨[],target,m,cur,rfl,hpos,by omega,rfl,hz,by simp,rfl,⟨rfl,h,rfl,rfl⟩⟩

theorem bytesLeft_toNat (hw : cp.reps.toNat*cp.bytes.toNat<2^64) :
    (cp.bytes*(cp.reps-cur.repNum)-cur.repBytes).toNat =
      (cp.reps.toNat-cur.repNum.toNat)*cp.bytes.toNat-cur.repBytes.toNat := by
  have h1 := h.1
  have h2 := h.2
  have hsub : (cp.reps-cur.repNum).toNat=cp.reps.toNat-cur.repNum.toNat :=
    toNat_sub_of_le (by rw [le_def]; omega)
  have hle : (cp.reps.toNat-cur.repNum.toNat)*cp.bytes.toNat ≤
      cp.reps.toNat*cp.bytes.toNat := Nat.mul_le_mul_right _ (Nat.sub_le _ _)
  have hge : cp.bytes.toNat≤(cp.reps.toNat-cur.repNum.toNat)*cp.bytes.toNat :=
    Nat.le_mul_of_pos_left _ (by omega)
  have hmul : (cp.bytes*(cp.reps-cur.repNum)).toNat=(cp.reps.toNat-cur.repNum.toNat)*cp.bytes.toNat := by
    rw [toNat_mul_of_lt (by rw [hsub,mul_comm]; omega),hsub,mul_comm]
  rw [toNat_sub_of_le (by rw [le_def,hmul]; omega),hmul]

theorem copy_exec_spec (hw : cp.reps.toNat*cp.bytes.toNat<2^64) (target : ℕ) {m : ℕ} (hpos : 0 < m)
    (hm : m≤(cp.bytes*(cp.reps-cur.repNum)-cur.repBytes).toNat) :
    ∃ moves cur', cp.exec target m cur = some (moves, cur') ∧ moves.flatMap Move.targets = List.range' target m ∧
      cur'.offset = cur.offset+BitVec.ofNat 64 m ∧
      Visits cp cur (moves.flatMap Move.cells) cur' := by
  have h1 := h.1
  have h2 := h.2
  have hsub : (cp.bytes-cur.repBytes).toNat=cp.bytes.toNat-cur.repBytes.toNat :=
    toNat_sub_of_le (by rw [le_def]; omega)
  rw [Copy.exec,if_pos hm,hsub]
  rw [bytesLeft_toNat h hw] at hm
  by_cases hlt : cp.bytes.toNat-cur.repBytes.toNat < m
  · simp only [if_pos hlt]
    have hsc := repNum_succ h
    have hone : cp.reps.toNat-cur.repNum.toNat=cp.reps.toNat-(cur.repNum.toNat+1)+1 := by omega
    rw [hone,Nat.add_mul,Nat.one_mul] at hm
    have hne : cur.repNum+1≠cp.reps := by
      intro he
      rw [← he,hsc,Nat.sub_self,Nat.zero_mul] at hm
      omega
    generalize hlf : cp.bytes.toNat-cur.repBytes.toNat=left at *
    have hadv := advances_rep h hne (cur.offset+BitVec.ofNat 64 left)
    rw [hlf] at hadv
    obtain ⟨moves,target',m',cur',hrun,hpos',hle,htgt,hz,hrng,hoff,hvis⟩ :=
      copyReps_spec m hadv.inCopy rfl (target+left) (m-left) (by omega)
        (by show _ ≤ (cp.reps.toNat-(cur.repNum+1).toNat)*_; rw [hsc]; omega) (by omega)
    have hla := hvis.inCopy.1
    obtain ⟨cur'',hend,hoff',hvis'⟩ := copyLast_spec (m := m') hvis.inCopy target'
      (by rw [hz]; exact hle)
    rw [hz,add_zero] at hend hvis'
    refine ⟨⟨target,⟨cur.disp+cur.repBytes,left⟩⟩ ::
      (moves ++ [⟨target',⟨cur'.disp,m'⟩⟩]),cur'',?_,?_,?_,?_⟩
    · rw [hrun,bind_some]
      simp only
      rw [if_pos (by rw [lt_def]; exact hla),hend,map_some]
    · have hsum : m=left+(m-left) := by omega
      rw [flatMap_cons,flatMap_append,flatMap_singleton]
      show List.range' target left ++ (_ ++ List.range' target' m') = _
      rw [hrng,hsum,Nat.add_sub_cancel_left]
      exact range'_append_1
    · have hsum : m=left+(m-left) := by omega
      rw [hoff',hoff]
      show cur.offset+BitVec.ofNat 64 left+BitVec.ofNat 64 (m-left) = _
      rw [add_assoc,← ofNat_add,← hsum]
    · rw [flatMap_cons,flatMap_append,flatMap_singleton]
      exact hadv.visits (hvis.visits hvis')
  · simp only [if_neg hlt]
    obtain ⟨cur',hend,hoff,hvis⟩ := copyLast_spec (m := m) h target (by omega)
    refine ⟨[⟨target,⟨cur.disp+cur.repBytes,m⟩⟩],cur',?_,?_,hoff,?_⟩
    · rw [hend,map_some]
    · simp [Move.targets]
    · rw [flatMap_singleton]
      exact hvis

end

end Reps

end PAMI.Datatype
