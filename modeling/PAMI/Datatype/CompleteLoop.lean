import PAMI.Datatype.Complete

namespace PAMI.Datatype

open TypeCode List BitVec

open PAMI.Math (Layout)
open Stack

section Loop

variable (fresh : ℕ → Memory) {heap : Word → TypeCode} {κ : Word → Code} {m : Memory} {st : Stack}

theorem RawAt.congr {m' : Memory} {pc : ℕ} {prev : Opcode} {is : List Instr} (h : RawAt m pc prev is)
    (hm : ∀ i, pc ≤ i → i < pc+instrBytes is+8 → m' i = m i) : RawAt m' pc prev is := by
  induction is generalizing pc prev with
  | nil => rw [RawAt,hm pc (by omega) (by simp [instrBytes])]; exact h
  | cons i is ih =>
    obtain ⟨hop,hprev,hargs,hrs⟩ := h
    have hb : instrBytes (i :: is) = i.size+instrBytes is := by simp [instrBytes]
    have hs := i.size_bounds
    refine ⟨?_,?_,?_,?_⟩
    · rw [hm pc (by omega) (by omega)]; exact hop
    · rw [hm pc (by omega) (by omega)]; exact hprev
    · rw [fields_congr m m' _ _ (fun j hl hu => hm j (by omega) (by rw [hb,Instr.size]; omega))]
      exact hargs
    · exact ih hrs (fun j hl hu => hm j (by omega) (by omega))

theorem Holds.rawAt (h : Holds m st) (is : List Instr) (hrs : RawAt m (codeSize st) (topOpcode st) is) :
    RawAt m 64 .BEGIN (st.reverse ++ is) := by
  induction st generalizing is with
  | nil => exact hrs
  | cons i st ih =>
    obtain ⟨hop,hprev,hargs,hst⟩ := h
    rw [reverse_cons,List.append_assoc]
    exact ih hst (i :: is) ⟨hop,hprev,hargs,hrs⟩

theorem RawAt.copy {pc : ℕ} {prev : Opcode} {c : Copy} {is : List Instr} (h : RawAt m pc prev (.copy c :: is)) :
    opcodeOf (m pc) = Opcode.COPY.code ∧ prevOf (m pc) = prev.code ∧ m (pc+8) = c.bytes ∧
      m (pc+16) = c.stride ∧ m (pc+24) = c.reps := by
  obtain ⟨hop,hprev,hargs,-⟩ := h
  have hargs' : [m (pc+8),m (pc+16),m (pc+24)] = [c.bytes,c.stride,c.reps] := hargs
  simp only [List.cons.injEq,and_true] at hargs'
  exact ⟨hop,hprev,hargs'⟩

theorem RawAt.call {pc : ℕ} {prev : Opcode} {c : Call} {is : List Instr} (h : RawAt m pc prev (.call c :: is)) :
    opcodeOf (m pc) = Opcode.CALL.code ∧ m (pc+8) = c.subType ∧ m (pc+16) = c.stride ∧ m (pc+24) = c.reps := by
  obtain ⟨hop,-,hargs,-⟩ := h
  have hargs' : [m (pc+8),m (pc+16),m (pc+24)] = [c.subType,c.stride,c.reps] := hargs
  simp only [List.cons.injEq,and_true] at hargs'
  exact ⟨hop,hargs'⟩

theorem RawAt.shift {pc : ℕ} {prev : Opcode} {s : Word} {is : List Instr}
    (h : RawAt m pc prev (.shift s :: is)) : opcodeOf (m pc) = Opcode.SHIFT.code ∧ m (pc+8) = s := by
  obtain ⟨hop,-,hargs,-⟩ := h
  have hargs' : [m (pc+8)] = [s] := hargs
  simp only [List.cons.injEq,and_true] at hargs'
  exact ⟨hop,hargs'⟩

theorem instrBytes_cons (i : Instr) (is : List Instr) :
    instrBytes (i :: is) = i.size+instrBytes is := by
  simp [instrBytes]

/-- The loop of `Complete` is at the instructions from `pc` on. -/
structure AtInstrs (heap : Word → TypeCode) (pc : ℕ) (prev : Opcode) (is : List Instr)
    (t : TypeCode) : Prop where
  raw : RawAt t.code pc prev is
  header_le : 64 ≤ pc
  room : pc + instrBytes is + 8 ≤ t.codeCursor
  codeSize : t.getCodeSize = BitVec.ofNat 64 t.codeCursor
  lt : t.codeCursor + subBytes heap is < 2^64

/-- What the loop of `Complete` makes of the instructions from `pc` on: code of the tree they
stand for. It adds up the header and leaves the other words alone. -/
structure Completes (heap : Word → TypeCode) (κ : Word → Code) (pc : ℕ) (prev : Opcode)
    (is : List Instr) (t u : TypeCode) : Prop where
  completed : u.completed = t.completed
  cursor : u.codeCursor = t.codeCursor + subBytes heap is
  codeSize : u.getCodeSize = BitVec.ofNat 64 u.codeCursor
  code : CodeAt u.code u.codeCursor pc (ofInstrs κ is)
  frame : ∀ i, 64 ≤ i → i < t.codeCursor → (i < pc ∨ pc + instrBytes is + 8 ≤ i) → u.code i = t.code i
  counts : Counts t u (keepsSimple (prevOf (t.code (pc + instrBytes is))) prev is)
    (callDepth κ is) (ofInstrs κ is).size (ofInstrs κ is).numBlocks (ofInstrs κ is).unit
    (ofInstrs κ is).layout.advance

section Instructions

variable {t t' u : TypeCode} {pc : ℕ} {prev : Opcode} {is : List Instr}

theorem AtInstrs.headerOnly {i : Instr} (h : AtInstrs heap pc prev (i :: is) t)
    (hh : HeaderOnly t t') (hsub : subBytes heap (i :: is) = subBytes heap is) :
    AtInstrs heap (pc+i.size) i.opcode is t' := by
  obtain ⟨-,-,-,hrs⟩ := h.raw
  have hpc := h.header_le
  have hrm := h.room
  rw [instrBytes_cons] at hrm
  refine ⟨hrs.congr (fun j hl _ => hh.code j (by omega)),by omega,?_,?_,?_⟩
  · rw [hh.cursor]
    omega
  · rw [hh.codeSize,hh.cursor]
    exact h.codeSize
  · rw [hh.cursor,← hsub]
    exact h.lt

theorem Completes.keep (h : Completes heap κ pc prev is t' u) (hh : HeaderOnly t t') {j : ℕ}
    (hl : 64≤j) (hj : j<t.codeCursor) (hout : j<pc ∨ pc+instrBytes is+8 ≤ j) :
    u.code j = t.code j := by
  rw [h.frame j hl (by rw [hh.cursor]; exact hj) hout,hh.code j hl]

theorem Completes.nil (h : AtInstrs heap pc prev [] t) :
    Completes heap κ pc prev [] t
      (if prevOf (t.code pc) = Opcode.BEGIN.code then t.setSimple false else t) := by
  have hop : opcodeOf (t.code pc)=Opcode.END.code := h.raw
  have hrm := h.room
  have hu : ∀ u, u=(if prevOf (t.code pc)=Opcode.BEGIN.code then t.setSimple false else t) → HeaderOnly t u ∧
        Counts t u (keepsSimple (prevOf (t.code pc)) prev []) 0 0 0 0 0 := by
    rintro u rfl
    by_cases hb : prevOf (t.code pc)=Opcode.BEGIN.code
    · rw [if_pos hb]
      simpa [keepsSimple,hb] using setSimple_counts t
    · rw [if_neg hb]
      refine ⟨⟨rfl,rfl,rfl,fun _ _ => rfl⟩,?_⟩
      simpa [keepsSimple,hb] using Counts.refl t
  obtain ⟨hh,hk⟩ := hu _ rfl
  refine ⟨hh.completed,hh.cursor,?_,?_,fun i hi _ _ => hh.code i hi,hk⟩
  · rw [hh.codeSize,h.codeSize,hh.cursor]
  · exact ⟨by rw [hh.code pc h.header_le]; exact hop,by rw [hh.cursor]; exact hrm⟩

theorem Completes.copy {c : Copy} (h : AtInstrs heap pc prev (.copy c :: is) t)
    (hu : Completes heap κ (pc+32) .COPY is (t.completeCopy pc) u) :
    Completes heap κ pc prev (.copy c :: is) t u := by
  obtain ⟨hop,hprev,hby,hst,hre⟩ := h.raw.copy
  obtain ⟨hh,hk⟩ := completeCopy_counts t hprev hby hst hre
  have hb : instrBytes (.copy c :: is) = 32+instrBytes is := instrBytes_cons _ _
  have hpc := h.header_le
  have hrm := h.room
  rw [hb] at hrm
  refine ⟨hu.completed.trans hh.completed,?_,hu.codeSize,⟨?_,⟨?_,?_,?_⟩,?_,hu.code⟩,?_,?_⟩
  · rw [hu.cursor,hh.cursor]
    rfl
  · rw [hu.keep hh hpc (by omega) (by omega)]
    exact hop
  · rw [hu.keep hh (by omega) (by omega) (by omega)]
    exact hby
  · rw [hu.keep hh (by omega) (by omega) (by omega)]
    exact hst
  · rw [hu.keep hh (by omega) (by omega) (by omega)]
    exact hre
  · rw [hu.cursor,hh.cursor]
    omega
  · intro j hl hj hout
    exact hu.keep hh hl hj (by omega)
  · have hcos := hk.trans hu.counts
    rw [hh.code _ (by omega),add_assoc,Nat.zero_max] at hcos
    have hadv : (ofInstrs κ (.copy c :: is)).layout.advance=c.stride*c.reps+(ofInstrs κ is).layout.advance := by
      rw [ofInstrs,Code.layout_copy,Layout.mul_advance,Layout.pow_advance,
        Layout.block_advance,toNat_nsmul,BitVec.mul_comm]
    rw [hadv,hb,ofInstrs,Code.size_copy,Code.numBlocks_copy]
    exact hcos

theorem Completes.shift {s : Word} (h : AtInstrs heap pc prev (.shift s :: is) t)
    (hu : Completes heap κ (pc+16) .SHIFT is (t.completeShift pc) u) :
    Completes heap κ pc prev (.shift s :: is) t u := by
  obtain ⟨hop,hs⟩ := h.raw.shift
  obtain ⟨hh,hk⟩ := completeShift_counts t pc
  have hb : instrBytes (.shift s :: is) = 16+instrBytes is := instrBytes_cons _ _
  have hpc := h.header_le
  have hrm := h.room
  rw [hb] at hrm
  refine ⟨hu.completed.trans hh.completed,?_,hu.codeSize,⟨?_,?_,?_,hu.code⟩,?_,?_⟩
  · rw [hu.cursor,hh.cursor]
    rfl
  · rw [hu.keep hh hpc (by omega) (by omega)]
    exact hop
  · rw [hu.keep hh (by omega) (by omega) (by omega)]
    exact hs
  · rw [hu.cursor,hh.cursor]
    omega
  · intro j hl hj hout
    exact hu.keep hh hl hj (by omega)
  · have hcos := hk.trans hu.counts
    rw [hs,Nat.zero_max,zero_add,zero_add,Nat.gcd_zero_left,Bool.false_and] at hcos
    have hadv : (ofInstrs κ (.shift s :: is)).layout.advance=s+(ofInstrs κ is).layout.advance := by
      rw [ofInstrs,Code.layout_shift,Layout.mul_advance,Layout.shift_advance]
    rw [hadv,ofInstrs,Code.size_shift,Code.numBlocks_shift]
    exact hcos

section

variable {c : Call} (h : AtInstrs heap pc prev (.call c :: is) t)
  (hrep : Represents (heap c.subType) (κ c.subType))
include h hrep

theorem AtInstrs.call : AtInstrs heap (pc+32) .CALL is (t.completeCall fresh heap pc) := by
  obtain ⟨-,had,hst,hre⟩ := h.raw.call
  obtain ⟨-,-,-,hrs⟩ := h.raw
  have hb : instrBytes (.call c :: is) = 32+instrBytes is := instrBytes_cons _ _
  have hpc := h.header_le
  have hrm := h.room
  have hlt : t.codeCursor+((heap c.subType).getCodeSize.toNat+subBytes heap is)<2^64 := h.lt
  rw [hb] at hrm
  have hbyt : (Instr.call c).size=32 := rfl
  rw [hbyt] at hrs
  obtain ⟨hcur,-,hsz,hbel,-,-,-⟩ := completeCall_spec t fresh heap hpc (by omega) had hst hre hrep
  refine ⟨hrs.congr (fun j hl hu => hbel j (by omega) (by omega) (by omega)),by omega,?_,?_,?_⟩
  · rw [hcur]
    omega
  · rw [hsz,hcur,h.codeSize,ofNat_add,← word_ofNat]
  · rw [hcur]
    omega

theorem Completes.call (hu : Completes heap κ (pc+32) .CALL is (t.completeCall fresh heap pc) u) :
    Completes heap κ pc prev (.call c :: is) t u := by
  obtain ⟨hop,had,hst,hre⟩ := h.raw.call
  have hb : instrBytes (.call c :: is) = 32+instrBytes is := instrBytes_cons _ _
  have hpc := h.header_le
  have hrm := h.room
  have hlt : t.codeCursor+((heap c.subType).getCodeSize.toNat+subBytes heap is)<2^64 := h.lt
  rw [hb] at hrm
  have hlim := hrep.code.lt_lim
  obtain ⟨hwc,hwco,-,hwbe,hwoff,hwsub,hk⟩ := completeCall_spec t fresh heap hpc (by omega) had hst hre hrep
  have hcu := hu.cursor
  have hfra := hu.frame
  rw [hwc] at hcu hfra
  have hkeep (j : ℕ) (hl : 64≤j) (hj : j<t.codeCursor) (h8 : j≠pc+8)
      (hout : j<pc+32 ∨ pc+32+instrBytes is+8≤j) : u.code j = t.code j := by
    rw [hfra j hl (by omega) hout,hwbe j hl hj h8]
  have hoff : u.code (pc+8) = BitVec.ofNat 64 (t.codeCursor-pc) := by
    rw [hfra _ (by omega) (by omega) (by omega),hwoff]
  have hbase : pc+(u.code (pc+8)).toNat=t.codeCursor := by
    rw [hoff,toNat_ofNat,Nat.mod_eq_of_lt (by omega)]
    omega
  have hcop (j : ℕ) (hj : j<(heap c.subType).getCodeSize.toNat) :
      u.code (t.codeCursor+j) = (heap c.subType).code j := by
    rw [hfra _ (by omega) (by omega) (by omega),hwsub j hj]
  refine ⟨hu.completed.trans hwco,?_,hu.codeSize,⟨?_,⟨?_,?_⟩,by omega,⟨?_,?_,?_⟩,hu.code⟩,?_,?_⟩
  · rw [hcu,add_assoc]
    rfl
  · rw [hkeep pc hpc (by omega) (by omega) (by omega)]
    exact hop
  · rw [hkeep _ (by omega) (by omega) (by omega) (by omega)]
    exact hst
  · rw [hkeep _ (by omega) (by omega) (by omega) (by omega)]
    exact hre
  · rw [hbase]
    refine hrep.header.congr (fun j hj => ?_)
    rw [hcop j (by omega),zero_add]
  · rw [hbase]
    omega
  · rw [hbase]
    exact hrep.code.relocate (by omega) (fun j _ hj => hcop j hj) (le_refl 64)
  · intro j hl hj hout
    exact hkeep j hl hj (by omega) (by omega)
  · have hcos := hk.trans hu.counts
    have hadv : (ofInstrs κ (.call c :: is)).layout.advance=c.stride*c.reps+(ofInstrs κ is).layout.advance := by
      rw [ofInstrs,Code.layout_call,Layout.mul_advance,Layout.pow_advance,
        Layout.withAdvance_advance,toNat_nsmul,BitVec.mul_comm]
    have hunit : (ofInstrs κ (.call c :: is)).unit =
        Nat.gcd (κ c.subType).unit (ofInstrs κ is).unit := Code.foldr_gcd_append _ _
    rw [hadv,hunit]
    simpa only [ofInstrs,Code.size_call,Code.numBlocks_call,keepsSimple,Bool.false_and,callDepth] using hcos

end

end Instructions

theorem completeLoop_spec (is : List Instr)
    (hheap : ∀ c, Instr.call c ∈ is → Represents (heap c.subType) (κ c.subType))
    (fuel : ℕ) {t : TypeCode} {pc : ℕ} {prev : Opcode} (h : AtInstrs heap pc prev is t)
    (hf : is.length+1≤fuel) :
    ∃ u, completeLoop fresh heap fuel t pc = some u ∧ Completes heap κ pc prev is t u := by
  induction is generalizing fuel t pc prev with
  | nil =>
    obtain ⟨fuel,rfl⟩ : ∃ f, fuel=f+1 := ⟨fuel-1,by simp at hf; omega⟩
    have hop : opcodeOf (t.code pc)=Opcode.END.code := h.raw
    rw [completeLoop,hop,if_neg (by decide),if_neg (by decide),if_neg (by decide),if_neg (by decide),if_pos rfl]
    exact ⟨_,rfl,.nil h⟩
  | cons i is ih =>
    obtain ⟨fuel,rfl⟩ : ∃ f, fuel=f+1 := ⟨fuel-1,by simp at hf; omega⟩
    rw [length_cons] at hf
    have hsub : ∀ c, Instr.call c ∈ is → Represents (heap c.subType) (κ c.subType) :=
      fun c hc => hheap c (mem_cons_of_mem _ hc)
    cases i with
    | copy c =>
      obtain ⟨hop,hprev,hby,hst,hre⟩ := h.raw.copy
      have hat := h.headerOnly (completeCopy_counts t hprev hby hst hre).1 rfl
      obtain ⟨u,hrun,hu⟩ := ih hsub fuel hat (by omega)
      refine ⟨u,?_,.copy h hu⟩
      rw [completeLoop,hop,if_neg (by decide),if_pos rfl]
      exact hrun
    | call c =>
      have hrep := hheap c (by simp)
      obtain ⟨u,hrun,hu⟩ := ih hsub fuel (h.call fresh hrep) (by omega)
      refine ⟨u,?_,.call fresh h hrep hu⟩
      rw [completeLoop,h.raw.call.1,if_neg (by decide),if_neg (by decide),if_pos rfl]
      exact hrun
    | shift s =>
      have hat := h.headerOnly (completeShift_counts t pc).1 rfl
      obtain ⟨u,hrun,hu⟩ := ih hsub fuel hat (by omega)
      refine ⟨u,?_,.shift h hu⟩
      rw [completeLoop,h.raw.shift.1,if_neg (by decide),if_neg (by decide),if_neg (by decide),if_pos rfl]
      exact hrun

theorem ofInstrs_depth (κ : Word → Code) (is : List Instr) :
    (ofInstrs κ is).depth = max 1 (callDepth κ is) := by
  induction is with
  | nil => rfl
  | cons i is ih =>
    cases i with
    | copy c => exact ih
    | call c => rw [ofInstrs,Code.depth,callDepth,ih,max_left_comm]
    | shift s => exact ih

theorem ofInstrs_wf {T : Word → Prop} (hT : ∀ p, T p → (κ p).WF) {is : List Instr}
    (h : Stack.WF T is) : (ofInstrs κ is).WF := by
  induction is with
  | nil => trivial
  | cons i is ih =>
    have hi := h i (by simp)
    cases i with
    | copy c => exact ⟨hi.1,hi.2.1,hi.2.2,ih h.tail⟩
    | call c => exact ⟨hi.1,hT _ hi.2,ih h.tail⟩
    | shift s => exact ih h.tail

theorem instrBytes_reverse (st : Stack) : codeSize st = 64+instrBytes st.reverse := by
  induction st with
  | nil => rfl
  | cons i st ih =>
    simp only [codeSize,ih,instrBytes,reverse_cons,map_append,List.sum_append,
      map_cons,map_nil,sum_cons,sum_nil]
    omega

theorem keepsSimple_eq (endPrev : BitVec 32) (is : List Instr)
    (hnil : is = [] → endPrev=Opcode.BEGIN.code)
    (hcopy : ∀ c, is = [.copy c] → endPrev=Opcode.COPY.code) :
    keepsSimple endPrev .BEGIN is = (ofInstrs κ is).isSimple := by
  rcases is with _ | ⟨c | c | s,is⟩
  · rw [hnil rfl]
    rfl
  · rcases is with _ | ⟨c' | c' | s,is⟩
    · rw [hcopy c rfl]
      rfl
    · rfl
    · rfl
    · rfl
  · rfl
  · rfl

structure Reflagged (u v : TypeCode) (f : Flags) : Prop where
  cursor : v.codeCursor = u.codeCursor
  code : ∀ i, i ≠ 8 → v.code i = u.code i
  flags : v.flags = f

theorem setFlags_reflagged (u : TypeCode) (f : Flags) : Reflagged u (u.setFlags f) f :=
  ⟨rfl,fun _ hi => Function.update_of_ne hi _ _,by simp [setFlags,put,flags]⟩

theorem checkContiguity_spec {u : TypeCode} {lim : ℕ} {c : Code} (hcd : CodeAt u.code lim 64 c)
    (hwf : c.WF) (hs : u.isSimple=c.isSimple) (hc : u.isContiguous=true) :
    ∃ v, u.checkContiguity = some v ∧ Reflagged u v { u.flags with contiguous := c.isContiguous } := by
  rw [checkContiguity]
  by_cases hsm : u.isSimple=false
  · rw [if_pos hsm]
    have hn : c.isContiguous=false := by
      by_contra hne
      obtain ⟨cp,rfl,-⟩ := Code.eq_of_isContiguous (by simpa using hne)
      rw [hsm] at hs
      exact absurd hs (by simp [Code.isSimple])
    rw [hn]
    exact ⟨_,rfl,setFlags_reflagged u _⟩
  · rw [if_neg hsm]
    obtain ⟨cp,rfl⟩ := Code.eq_of_isSimple (hs.symm.trans (by simpa using hsm))
    obtain ⟨-,⟨hb,hst,hr⟩,-,-⟩ := hcd
    have hcopy : u.singleCopy=cp := by
      rw [singleCopy,show u.code 72=cp.bytes from hb,
        show u.code 80=cp.stride from hst,show u.code 88=cp.reps from hr]
    rw [hcopy]
    by_cases he : cp.bytes=cp.stride
    · have hr1 := hwf.2.2.1 he
      have hct : (Code.copy cp .done).isContiguous=true := by simp [Code.isContiguous,he,hr1]
      rw [if_neg (by simpa using he),if_pos hr1,hct]
      exact ⟨u,rfl,rfl,fun _ _ => rfl,by rw [← hc]; rfl⟩
    · have hct : (Code.copy cp .done).isContiguous=false := by simp [Code.isContiguous,he]
      rw [if_pos he,hct]
      exact ⟨_,rfl,setFlags_reflagged u _⟩

theorem BlankHeader.congr {t e : TypeCode} (h : BlankHeader t)
    (hcd : ∀ i, i<64 → i≠16 → e.code i = t.code i) : BlankHeader e := by
  have hfla : e.flags=t.flags := by rw [flags,hcd 8 (by decide) (by decide),flags]
  refine ⟨?_,?_,?_,?_,?_,?_,?_,?_⟩
  · rw [hcd 0 (by decide) (by decide)]
    exact h.opcode
  · rw [isContiguous,hfla]
    exact h.contiguous
  · rw [isSimple,hfla]
    exact h.simple
  · rw [getDepth,hfla]
    exact h.depth
  · exact (hcd 24 (by decide) (by decide)).trans h.dataSize
  · exact (hcd 32 (by decide) (by decide)).trans h.extent
  · exact (hcd 40 (by decide) (by decide)).trans h.numBlocks
  · exact (hcd 48 (by decide) (by decide)).trans h.unit

theorem BlankHeader.headerAt {e u w : TypeCode} {simple : Bool} {depth : ℕ} {k : Code}
    (h : BlankHeader e) (hcnt : Counts e u simple depth k.size k.numBlocks k.unit k.layout.advance)
    (hdpt : k.depth = max 1 depth) (hcd : ∀ i, i≠8 → w.code i = u.code i)
    (hcon : w.isContiguous=k.isContiguous) (hsim : w.isSimple=k.isSimple)
    (hdep : w.getDepth=u.getDepth) : HeaderAt w.code 0 k where
  opcode := by
    rw [hcd 0 (by decide),hcnt.opcode]
    exact h.opcode
  contiguous := hcon
  simple := hsim
  depth := by
    intro hd
    show w.getDepth.toNat = _
    rw [hdep,hcnt.depth (by omega),hdpt,h.depth]
    rfl
  dataSize := by
    have hd := hcnt.dataSize
    rw [h.dataSize,zero_add] at hd
    exact (hcd 24 (by decide)).trans hd
  extent := by
    have hd := hcnt.extent
    rw [h.extent,zero_add] at hd
    exact (hcd 32 (by decide)).trans hd
  numBlocks := by
    have hd := hcnt.numBlocks
    rw [h.numBlocks,zero_add] at hd
    exact (hcd 40 (by decide)).trans hd
  unit := by
    have hd := hcnt.unit
    rw [h.unit,show (0 : Word).toNat=0 from rfl,Nat.gcd_zero_left] at hd
    rw [show 0+48=48 from rfl,hcd 48 (by decide)]
    exact hd

/-- The code after `Complete` has pushed `END`. -/
structure EndPushed (st : Stack) (e : TypeCode) : Prop where
  cursor : e.codeCursor = codeSize st + 8
  codeSize : e.getCodeSize = BitVec.ofNat 64 e.codeCursor
  blank : BlankHeader e
  raw : RawAt e.code 64 .BEGIN st.reverse
  keeps : ∀ κ, keepsSimple (prevOf (e.code (Stack.codeSize st))) .BEGIN st.reverse = (ofInstrs κ st.reverse).isSimple

theorem Refines.push_end {t : TypeCode} (h : Refines t st) : EndPushed st (t.push fresh .END []) := by
  have hc := h.cursor_ge
  have hbuf : 0<t.codeBufSize := by have := h.buffer; omega
  have hcur := h.cursor
  have hge := codeSize_ge st
  have hcrs : (t.push fresh .END []).codeCursor=codeSize st+8 := by
    rw [t.push_cursor,hcur]
    rfl
  have hbel (i : ℕ) (hi : i < codeSize st) (h16 : i≠16) :
      (t.push fresh .END []).code i = t.code i :=
    t.push_below fresh _ _ hbuf i (by omega) h16
  have hword : (t.push fresh .END []).code (codeSize st) = opWord Opcode.END.code (prevOf (t.slotWord fresh 0)) := by
    rw [← hcur]
    exact t.push_word fresh _ _ hc hbuf
  refine ⟨hcrs,?_,h.blank.congr fun i hi h16 => hbel i (by omega) h16,?_,fun κ => ?_⟩
  · rw [hcrs,t.push_codeSize fresh _ _ hc hbuf,h.codeSizeWord,← ofNat_add]
    rfl
  · have hend : RawAt (t.push fresh .END []).code (codeSize st) (topOpcode st) [] := by
      show opcodeOf ((t.push fresh .END []).code (codeSize st))=Opcode.END.code
      rw [hword,opcodeOf_opWord]
    have hslo : Holds (t.push fresh .END []).code st := h.slots.congr (fun i hl hu => hbel i hu (by omega))
    simpa using hslo.rawAt [] hend
  · have hsl (hn : ¬ t.Grows 0) : prevOf (t.slotWord fresh 0)=(topOpcode st).code := by
      rw [slotWord,if_neg hn,hcur]
      exact h.link
    have hft (hs : codeSize st≤96) : ¬ t.Grows 0 := by
      have hb := h.buffer
      unfold TypeCode.Grows
      omega
    rw [hword,prevOf_opWord]
    apply keepsSimple_eq
    · intro hn
      obtain rfl : st = [] := by simpa using hn
      exact hsl (hft (by simp [Stack.codeSize]))
    · intro c hc1
      obtain rfl : st = [.copy c] := by simpa using hc1
      exact hsl (hft (by simp [Stack.codeSize,Instr.size,Instr.operands]))

theorem setPrimitive_reflagged {u v : TypeCode} {f : Flags} (h : Reflagged u v f) :
    ∃ w, w=(if v.getPrimitive=primitiveUndefined then
        v.setPrimitive primitiveCount else v) ∧
      (∀ i, i≠8 → w.code i = u.code i) ∧
      w.isContiguous=f.contiguous ∧ w.isSimple=f.simple ∧ w.getDepth=f.depth := by
  refine ⟨_,rfl,?_⟩
  split_ifs
  · have hp := setFlags_reflagged v { v.flags with primitive := primitiveCount }
    have hfl : (v.setPrimitive primitiveCount).flags = _ := hp.flags
    refine ⟨fun i hi => (hp.code i hi).trans (h.code i hi),?_⟩
    simp [isContiguous,isSimple,getDepth,hfl,h.flags]
  · refine ⟨h.code,?_⟩
    simp [isContiguous,isSimple,getDepth,h.flags]

theorem complete_represents {t : TypeCode} (h : Refines t st)
    (hwf : Stack.WF (fun p => Represents (heap p) (κ p)) st)
    (hlt : codeSize st+8+subBytes heap st.reverse < 2^64) :
    ∃ u, t.complete fresh heap = some u ∧ Represents u (ofInstrs κ st.reverse) := by
  have hge := codeSize_ge st
  have hbyt := instrBytes_reverse st
  have he := h.push_end fresh
  generalize hpush : t.push fresh .END []=e at he
  have hecur := he.cursor
  have hlng : st.reverse.length=st.length := length_reverse
  have hheap : ∀ c, Instr.call c ∈ st.reverse → Represents (heap c.subType) (κ c.subType) :=
    fun c hmem => (hwf (.call c) (by simpa using hmem)).2
  obtain ⟨fuel,hfuel⟩ : ∃ f, e.codeCursor=f+1 := ⟨e.codeCursor-1,by omega⟩
  obtain ⟨u,hrun,hu⟩ := completeLoop_spec fresh st.reverse hheap fuel
    ⟨he.raw,le_refl 64,by omega,he.codeSize,by omega⟩ (by omega)
  have hloop : completeLoop fresh heap e.codeCursor e 0 = some u := by
    rw [hfuel,completeLoop,if_pos he.blank.opcode]
    exact hrun
  have hsim : u.isSimple=(ofInstrs κ st.reverse).isSimple := by
    rw [hu.counts.simple,← hbyt,he.keeps κ,he.blank.simple,Bool.true_and]
  have hcon : u.isContiguous=true := by
    rw [hu.counts.contiguous]
    exact he.blank.contiguous
  have hwf' : (ofInstrs κ st.reverse).WF := ofInstrs_wf (T := fun p => Represents (heap p) (κ p)) (fun _ hr => hr.wf)
      (fun i hi => hwf i (by simpa using hi))
  obtain ⟨v,hv,hvf⟩ := checkContiguity_spec hu.code hwf' hsim hcon
  obtain ⟨w,hw,hcd,hwcn,hwsi,hwde⟩ := setPrimitive_reflagged hvf
  refine ⟨{ w with completed := true },?_,rfl,?_,?_,hwf'⟩
  · have hle : e.codeCursor≤e.getCodeSize.toNat := by rw [he.codeSize,toNat_ofNat,Nat.mod_eq_of_lt (by omega)]
    rw [complete,if_neg (by simp [h.incomplete]),hpush]
    rw [if_pos hle,hloop,Option.bind_some,hv,Option.map_some,hw]
  · exact he.blank.headerAt hu.counts (ofInstrs_depth κ st.reverse) hcd hwcn (hwsi.trans hsim) hwde
  · have hcu := hu.cursor
    have hlim : (getCodeSize { w with completed := true }).toNat=u.codeCursor := by
      have hucs : u.getCodeSize.toNat=u.codeCursor := by rw [hu.codeSize,toNat_ofNat,Nat.mod_eq_of_lt (by omega)]
      rw [← hucs,getCodeSize,hcd 16 (by decide)]
      rfl
    rw [hlim]
    exact hu.code.congr (fun i hi => hcd i (by omega))

end Loop

end PAMI.Datatype
