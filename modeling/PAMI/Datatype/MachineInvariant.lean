import PAMI.Datatype.TypeMachine

namespace PAMI.Datatype

open List

open PAMI.Math (Layout)

/-- A cursor and the code it has still to run at its level. -/
abbrev Frame := Cursor × Code

def Code.NoWrap : Code → Prop
  | done => True
  | copy c k => c.reps.toNat * c.bytes.toNat < 2^64 ∧ k.NoWrap
  | shift _ k => k.NoWrap
  | call sub _ _ k => sub.NoWrap ∧ k.NoWrap

variable {c : Code}

theorem Code.noWrap_of_size (hwf : c.WF) (h : c.size<2^64) : c.NoWrap := by
  induction c with
  | done => trivial
  | copy c k ih =>
    rw [size_copy] at h
    exact ⟨by omega,ih hwf.2.2.2 (by omega)⟩
  | shift s k ih =>
    rw [size_shift] at h
    exact ih hwf h
  | call sub stride reps k ihs ih =>
    rw [size_call] at h
    have hle : sub.size ≤ reps.toNat*sub.size := Nat.le_mul_of_pos_left _ (toNat_pos hwf.1)
    exact ⟨ihs hwf.2.1 (by omega),ih hwf.2.2 (by omega)⟩

/-- The blocks a level has still to visit, at their displacements. -/
def frameBlocks : Frame → Layout (Layout.Extent Word) Word
  | (cur, .copy c k) => Layout.shift cur.disp *
      (Layout.run c.bytes.toNat c.stride ^ (c.reps.toNat - cur.repNum.toNat) * k.blocks)
  | (cur, .call sub stride reps k) => Layout.shift cur.disp *
      (sub.blocks.withAdvance stride ^ (reps.toNat - cur.repNum.toNat) * k.blocks)
  | (cur, k) => Layout.shift cur.disp * k.blocks

/-- The blocks a level has still to visit when the sub-type it is calling has returned. -/
def resumedBlocks : Frame → Layout (Layout.Extent Word) Word
  | (cur, .call sub stride reps k) => Layout.shift (cur.disp + stride) *
      (sub.blocks.withAdvance stride ^ (reps.toNat - (cur.repNum.toNat + 1)) * k.blocks)
  | (cur, k) => Layout.shift cur.disp * k.blocks

/-- What the waiting levels visit, given where the level above leaves the origin. -/
def waitingBlocks : List Frame → Word → Layout (Layout.Extent Word) Word
  | [], d => Layout.shift d
  | f :: fs, _ =>
    let rest := waitingBlocks fs (resumedBlocks f).advance
    ⟨(resumedBlocks f).items ++ rest.items, rest.advance⟩

/-- The blocks of the current pass that are still to visit, and where it leaves the origin. -/
@[grind =] def remaining : List Frame → Layout (Layout.Extent Word) Word
  | [] => 1
  | f :: fs =>
    let rest := waitingBlocks fs (frameBlocks f).advance
    ⟨(frameBlocks f).items ++ rest.items, rest.advance⟩

def cellsLeft (f : Frame) (fs : List Frame) : List Word := (remaining (f :: fs)).cells.items.drop f.1.repBytes.toNat

section Valid

variable (code : Memory) (lim : ℕ) (w : Prop)

/-- The code of a frame lies at its program counter. -/
structure Placed (f : Frame) : Prop where
  code : CodeAt code lim f.1.pc f.2
  wf : f.2.WF
  noWrap : w → f.2.NoWrap

/-- The repetition the top cursor is in exists. -/
def InRange : Frame → Prop
  | (cur, .copy c _) => cur.repNum.toNat < c.reps.toNat ∧ cur.repBytes.toNat < c.bytes.toNat
  | (cur, .call _ _ reps _) => cur.repNum.toNat < reps.toNat ∧ cur.repBytes = 0
  | (cur, _) => cur.repNum = 0 ∧ cur.repBytes = 0

def Waits (f : Frame) : Prop :=
  ∃ sub stride reps k, f.2 = .call sub stride reps k ∧ f.1.repNum.toNat < reps.toNat

/-- The frames stand for a stack of cursors in the code. -/
structure Matches (f : Frame) (fs : List Frame) : Prop where
  placed : ∀ g ∈ f :: fs, Placed code lim w g
  inRange : InRange f
  waits : ∀ g ∈ fs, Waits g

end Valid

/-- Steps other than copies that the code takes at most before it ends. -/
def Code.steps : Code → ℕ
  | done => 1
  | copy _ k => 1 + k.steps
  | shift _ k => 1 + k.steps
  | call sub _ reps k => reps.toNat * (sub.steps + 1) + 1 + k.steps

def frameSteps : Frame → ℕ
  | (cur, .call sub _ reps k) => (reps.toNat - cur.repNum.toNat) * (sub.steps + 1) + 1 + k.steps
  | (_, k) => k.steps

def resumedSteps : Frame → ℕ
  | (cur, .call sub _ reps k) => (reps.toNat - (cur.repNum.toNat + 1)) * (sub.steps + 1) + 1 + k.steps
  | (_, k) => k.steps

def stepsLeft (f : Frame) (fs : List Frame) : ℕ := frameSteps f + (fs.map resumedSteps).sum

section Steps

variable {code : Memory} {lim : ℕ} {w : Prop} {f : Frame} {cur' : Cursor}

theorem inRange_start {k : Code} (hwf : k.WF) (pc : ℕ) (disp offset : Word) :
    InRange (⟨pc,disp,offset,0,0⟩, k) := by
  cases k with
  | done => exact ⟨rfl,rfl⟩
  | copy c k => exact ⟨toNat_pos hwf.2.1,toNat_pos hwf.1⟩
  | shift s k => exact ⟨rfl,rfl⟩
  | call sub stride reps k => exact ⟨toNat_pos hwf.1,rfl⟩

theorem frameBlocks_start (k : Code) (pc : ℕ) (disp offset : Word) :
    frameBlocks (⟨pc,disp,offset,0,0⟩, k) = Layout.shift disp*k.blocks := by
  cases k <;> rfl

theorem frameSteps_start (k : Code) (pc : ℕ) (disp offset : Word) :
    frameSteps (⟨pc,disp,offset,0,0⟩, k) = k.steps := by
  cases k <;> rfl

theorem remaining_start (k : Code) (pc : ℕ) (disp offset : Word) :
    remaining [(⟨pc,disp,offset,0,0⟩, k)] = Layout.shift disp*k.blocks := by
  rw [remaining,frameBlocks_start]
  apply Layout.ext
  · simp [waitingBlocks]
  · simp [waitingBlocks]

theorem remaining_call (cur : Cursor) {sub : Code} {stride reps : Word} {k : Code}
    {fs : List Frame} (hr : cur.repNum.toNat < reps.toNat) (pc : ℕ) (offset : Word) :
    remaining ((⟨pc,cur.disp,offset,0,0⟩, sub) :: (cur, .call sub stride reps k) :: fs) =
      remaining ((cur, .call sub stride reps k) :: fs) := by
  have hsc : reps.toNat-cur.repNum.toNat=reps.toNat-(cur.repNum.toNat+1)+1 := by omega
  have hspl : frameBlocks (cur, .call sub stride reps k) = Layout.shift cur.disp*sub.blocks.withAdvance stride *
        (sub.blocks.withAdvance stride^(reps.toNat-(cur.repNum.toNat+1))*k.blocks) := by
    rw [frameBlocks,hsc,pow_succ']
    simp only [mul_assoc]
  have hres : resumedBlocks (cur, .call sub stride reps k) = Layout.shift (cur.disp+stride) *
      (sub.blocks.withAdvance stride^(reps.toNat-(cur.repNum.toNat+1))*k.blocks) := rfl
  generalize hx : sub.blocks.withAdvance stride^(reps.toNat-(cur.repNum.toNat+1))*k.blocks=x at hspl hres
  have hadv : (frameBlocks (cur, .call sub stride reps k)).advance =
      (resumedBlocks (cur, .call sub stride reps k)).advance := by
    rw [hspl,hres]
    simp
  have hite : (frameBlocks (cur, .call sub stride reps k)).items=(Layout.shift cur.disp*sub.blocks).items ++
        (resumedBlocks (cur, .call sub stride reps k)).items := by
    rw [hspl,hres]
    simp
  simp only [remaining,waitingBlocks,frameBlocks_start]
  rw [hadv,hite,List.append_assoc]

theorem Placed.next_copy {cur : Cursor} {c : Copy} {k : Code} (h : Placed code lim w (cur, .copy c k))
    (hpc : cur'.pc=cur.pc+32) : Placed code lim w (cur', k) :=
  ⟨by rw [hpc]; exact h.code.2.2.2,h.wf.2.2.2,fun hw => (h.noWrap hw).2⟩

theorem Placed.next_shift {cur : Cursor} {s : Word} {k : Code} (h : Placed code lim w (cur, .shift s k))
    (hpc : cur'.pc=cur.pc+16) : Placed code lim w (cur', k) :=
  ⟨by rw [hpc]; exact h.code.2.2.2,h.wf,h.noWrap⟩

section

variable {cur : Cursor} {sub k : Code} {stride reps : Word}
  (h : Placed code lim w (cur, .call sub stride reps k))
include h

theorem Placed.next_call (hpc : cur'.pc=cur.pc+32) : Placed code lim w (cur', k) :=
  ⟨by rw [hpc]; exact h.code.2.2.2.2,h.wf.2.2,fun hw => (h.noWrap hw).2⟩

theorem Placed.sub_call (hpc : cur'.pc=cur.pc+(code (cur.pc+8)).toNat+64) :
    Placed code lim w (cur', sub) :=
  ⟨by rw [hpc]; exact h.code.2.2.2.1.2.2,h.wf.2.1,fun hw => (h.noWrap hw).1⟩

end

theorem Placed.same_pc {cur : Cursor} {k : Code} (h : Placed code lim w (cur, k)) (hpc : cur'.pc=cur.pc) :
    Placed code lim w (cur', k) :=
  ⟨by rw [hpc]; exact h.code,h.wf,h.noWrap⟩

/-- What the return from a sub-type makes of the cursor that called it. -/
def returned (cur old : Cursor) (stride reps : Word) : Cursor :=
  let old' := { old with
    disp := old.disp + stride
    offset := cur.offset
    repNum := old.repNum + 1
    repBytes := 0 }
  if old'.repNum = reps then { old' with pc := old'.pc + 32, repNum := 0 } else old'

theorem returned_spec (cur : Cursor) {old : Cursor} {sub : Code} {stride reps : Word} {k : Code}
    (hp : Placed code lim w (old, .call sub stride reps k))
    (hr : old.repNum.toNat < reps.toNat) :
    ∃ k', Placed code lim w (returned cur old stride reps, k') ∧ InRange (returned cur old stride reps, k') ∧
      (returned cur old stride reps).offset=cur.offset ∧
      (returned cur old stride reps).repBytes=0 ∧
      frameBlocks (returned cur old stride reps, k') = resumedBlocks (old, .call sub stride reps k) ∧
      frameSteps (returned cur old stride reps, k') ≤ resumedSteps (old, .call sub stride reps k) := by
  have hnx : (old.repNum+1).toNat=old.repNum.toNat+1 := by
    have hlt := reps.isLt
    exact toNat_add_of_lt (by simp; omega)
  by_cases he : old.repNum+1=reps
  · refine ⟨k,?_⟩
    have hret : returned cur old stride reps = ⟨old.pc+32,old.disp+stride,cur.offset,0,0⟩ := by
      rw [returned]
      exact if_pos he
    have hz : reps.toNat-(old.repNum.toNat+1)=0 := by rw [← he,hnx,Nat.sub_self]
    rw [hret]
    refine ⟨hp.next_call rfl,inRange_start hp.wf.2.2 _ _ _,rfl,rfl,?_,?_⟩
    · rw [frameBlocks_start,resumedBlocks,hz,pow_zero,one_mul]
    · rw [frameSteps_start,resumedSteps]
      omega
  · refine ⟨.call sub stride reps k,?_⟩
    have hret : returned cur old stride reps = ⟨old.pc,old.disp+stride,cur.offset,old.repNum+1,0⟩ := by
      rw [returned]
      exact if_neg he
    have hne : old.repNum.toNat+1≠reps.toNat := fun h => he (BitVec.eq_of_toNat_eq (hnx.trans h))
    rw [hret]
    refine ⟨hp.same_pc rfl,⟨?_,rfl⟩,rfl,rfl,?_,?_⟩
    · show (old.repNum+1).toNat < reps.toNat
      omega
    · rw [frameBlocks,resumedBlocks,hnx]
    · rw [frameSteps,resumedSteps,hnx]

/-- An operation other than a copy goes on in the same pass: the blocks to visit stay, and there are
fewer such operations left before them. -/
def Proceeds (code : Memory) (lim : ℕ) (w : Prop) (f : Frame) (fs : List Frame) : Prop :=
  ∃ g gs, execute code (f.1 :: fs.map Prod.fst) = some (g.1 :: gs.map Prod.fst) ∧
    Matches code lim w g gs ∧ g.1.offset = f.1.offset ∧ g.1.repBytes = 0 ∧
    remaining (g :: gs) = remaining (f :: fs) ∧ stepsLeft g gs < stepsLeft f fs

section Operations

variable {cur : Cursor} {fs : List Frame}

theorem execute_done (hop : opcodeOf (code cur.pc) = Opcode.END.code) (rest : List Cursor) :
    execute code (cur :: rest) = some (executeEnd code cur rest) := by
  rw [execute,hop,if_neg (by decide),if_neg (by decide),if_pos rfl]

theorem frameBlocks_done (cur : Cursor) : frameBlocks (cur, .done) = Layout.shift cur.disp := by
  rw [frameBlocks,Code.blocks,mul_one] <;> simp

theorem proceeds_return {old : Frame} (h : Matches code lim w (cur, .done) (old :: fs)) :
    Proceeds code lim w (cur, .done) (old :: fs) := by
  have hop : opcodeOf (code cur.pc)=Opcode.END.code := (h.placed (cur, .done) (by simp)).code.1
  obtain ⟨oldCur,oldCode⟩ := old
  obtain ⟨sub,stride,reps,k,rfl,hr⟩ := h.waits (oldCur, oldCode) (by simp)
  have hpo := h.placed (oldCur, .call sub stride reps k) (by simp)
  obtain ⟨k',hpl,hin,hoff,hrb,hblc,hstp⟩ := returned_spec cur hpo hr
  have hste : code (oldCur.pc+16)=stride := hpo.code.2.1.1
  have hreps : code (oldCur.pc+24)=reps := hpo.code.2.1.2
  refine ⟨(returned cur oldCur stride reps, k'),fs,?_,?_,hoff,hrb,?_,?_⟩
  · rw [map_cons,execute_done hop,executeEnd,hste,hreps]
    rfl
  · refine ⟨?_,hin,fun g hg => h.waits g (by simp [hg])⟩
    intro g hg
    rcases mem_cons.mp hg with rfl | hg
    · exact hpl
    · exact h.placed g (by simp [hg])
  · simp only [remaining,waitingBlocks,hblc,frameBlocks_done,Layout.shift_items,nil_append]
  · simp only [stepsLeft,map_cons,sum_cons]
    have hone : frameSteps (cur, .done)=1 := rfl
    omega

theorem proceeds_shift {s : Word} {k : Code} (h : Matches code lim w (cur, .shift s k) fs) :
    Proceeds code lim w (cur, .shift s k) fs := by
  have hp := h.placed (cur, .shift s k) (by simp)
  have hop : opcodeOf (code cur.pc)=Opcode.SHIFT.code := hp.code.1
  have hs : code (cur.pc+8)=s := hp.code.2.1
  obtain ⟨hrn,hrb⟩ := h.inRange
  have hnew : ({ cur with pc := cur.pc+16, disp := cur.disp+s } : Cursor) =
      ⟨cur.pc+16,cur.disp+s,cur.offset,0,0⟩ := by
    rw [hrn,hrb]
  refine ⟨(⟨cur.pc+16,cur.disp+s,cur.offset,0,0⟩, k),fs,?_,?_,rfl,rfl,?_,?_⟩
  · rw [execute,hop,if_neg (by decide),if_pos rfl,executeShift,hs,hnew]
  · refine ⟨?_,inRange_start (k := k) hp.wf _ _ _,h.waits⟩
    intro g hg
    rcases mem_cons.mp hg with rfl | hg
    · exact hp.next_shift rfl
    · exact h.placed g (by simp [hg])
  · have hb : frameBlocks (cur, .shift s k) = frameBlocks (⟨cur.pc+16,cur.disp+s,cur.offset,0,0⟩, k) := by
      rw [frameBlocks_start,frameBlocks,Code.blocks,← mul_assoc,Layout.shift_mul_shift] <;>
        simp
    simp only [remaining,hb]
  · rw [stepsLeft,stepsLeft,frameSteps_start]
    have hone : frameSteps (cur, .shift s k)=1+k.steps := rfl
    omega

theorem proceeds_call {sub k : Code} {stride reps : Word}
    (h : Matches code lim w (cur, .call sub stride reps k) fs) :
    Proceeds code lim w (cur, .call sub stride reps k) fs := by
  have hp := h.placed (cur, .call sub stride reps k) (by simp)
  have hop : opcodeOf (code cur.pc)=Opcode.CALL.code := hp.code.1
  obtain ⟨hr,hrb⟩ := h.inRange
  refine ⟨(⟨cur.pc+(code (cur.pc+8)).toNat+64,cur.disp,cur.offset,0,0⟩, sub),
    (cur, .call sub stride reps k) :: fs,?_,?_,rfl,rfl,?_,?_⟩
  · rw [execute,hop,if_pos rfl]
    rfl
  · refine ⟨?_,inRange_start hp.wf.2.1 _ _ _,?_⟩
    · intro g hg
      rcases mem_cons.mp hg with rfl | hg
      · exact hp.sub_call rfl
      · exact h.placed g hg
    · intro g hg
      rcases mem_cons.mp hg with rfl | hg
      · exact ⟨sub,stride,reps,k,rfl,hr⟩
      · exact h.waits g hg
  · exact remaining_call cur hr _ _
  · rw [stepsLeft,stepsLeft,frameSteps_start,map_cons,sum_cons]
    have htop : frameSteps (cur, .call sub stride reps k) =
        (reps.toNat-cur.repNum.toNat)*(sub.steps+1)+1+k.steps := rfl
    have hwait : resumedSteps (cur, .call sub stride reps k) =
        (reps.toNat-(cur.repNum.toNat+1))*(sub.steps+1)+1+k.steps := rfl
    have hsc : reps.toNat-cur.repNum.toNat=reps.toNat-(cur.repNum.toNat+1)+1 := by omega
    rw [htop,hwait,hsc,add_mul]
    omega

end Operations

theorem execute_spec (hc : Placed code lim w (⟨64,0,0,0,0⟩, c)) {fs : List Frame}
    (h : Matches code lim w f fs) (hnc : ∀ cp k, f.2 ≠ .copy cp k) :
    ∃ g gs, execute code (f.1 :: fs.map Prod.fst) = some (g.1 :: gs.map Prod.fst) ∧
      Matches code lim w g gs ∧ g.1.offset=f.1.offset ∧ g.1.repBytes=0 ∧
      ((remaining (g :: gs) = remaining (f :: fs) ∧ stepsLeft g gs < stepsLeft f fs) ∨
        ((remaining (f :: fs)).items = [] ∧ gs = [] ∧
          g=(⟨64,(remaining (f :: fs)).advance,f.1.offset,0,0⟩, c))) := by
  have hprc (hf : Proceeds code lim w f fs) :
      ∃ g gs, execute code (f.1 :: fs.map Prod.fst) = some (g.1 :: gs.map Prod.fst) ∧
        Matches code lim w g gs ∧ g.1.offset=f.1.offset ∧ g.1.repBytes=0 ∧
        ((remaining (g :: gs) = remaining (f :: fs) ∧ stepsLeft g gs < stepsLeft f fs) ∨
          ((remaining (f :: fs)).items = [] ∧ gs = [] ∧
            g=(⟨64,(remaining (f :: fs)).advance,f.1.offset,0,0⟩, c))) := by
    obtain ⟨g,gs,hex,hmat,hoff,hrb,hrem,hstp⟩ := hf
    exact ⟨g,gs,hex,hmat,hoff,hrb,.inl ⟨hrem,hstp⟩⟩
  obtain ⟨cur,k⟩ := f
  cases k with
  | done =>
    cases fs with
    | nil =>
      have hop : opcodeOf (code cur.pc)=Opcode.END.code := (h.placed (cur, .done) (by simp)).code.1
      refine ⟨(⟨64,cur.disp,cur.offset,0,0⟩, c),[],?_,?_,rfl,rfl,.inr ⟨?_,rfl,?_⟩⟩
      · rw [map_nil,execute_done hop]
        rfl
      · refine ⟨?_,inRange_start hc.wf _ _ _,by simp⟩
        intro g hg
        obtain rfl : g = _ := by simpa using hg
        exact hc.same_pc rfl
      · simp [remaining,frameBlocks_done,waitingBlocks]
      · simp [remaining,frameBlocks_done,waitingBlocks]
    | cons old fs => exact hprc (proceeds_return h)
  | copy cp k => exact absurd rfl (hnc cp k)
  | shift s k => exact hprc (proceeds_shift h)
  | call sub stride reps k => exact hprc (proceeds_call h)

/-- So many operations other than copies lead from one stack to the other. -/
inductive Settles (code : Memory) : List Cursor → List Cursor → ℕ → Prop
  | refl (stack : List Cursor) : Settles code stack stack 0
  | step {cur : Cursor} {rest stack' stack'' : List Cursor} {n : ℕ} (hb : cur.repBytes = 0)
      (he : execute code (cur :: rest) = some stack') (hs : Settles code stack' stack'' n) :
      Settles code (cur :: rest) stack'' (n + 1)

theorem Settles.trans {s t u : List Cursor} {m n : ℕ} (h : Settles code s t m)
    (h' : Settles code t u n) : Settles code s u (m+n) := by
  induction h with
  | refl => simpa using h'
  | step hb he _ ih =>
    rw [add_right_comm]
    exact .step hb he (ih h')

theorem InRange.repBytes_zero (h : InRange f) (hnc : ∀ cp k, f.2 ≠ .copy cp k) : f.1.repBytes=0 := by
  obtain ⟨cur,k⟩ := f
  cases k with
  | done => exact h.2
  | copy cp k => exact absurd rfl (hnc cp k)
  | shift s k | call sub stride reps k => exact h.2

theorem settle_or_wrap (hc : Placed code lim w (⟨64,0,0,0,0⟩, c)) (b : ℕ) {fs : List Frame}
    (h : Matches code lim w f fs) (hb : stepsLeft f fs ≤ b) :
    ∃ g gs n, Settles code (f.1 :: fs.map Prod.fst) (g.1 :: gs.map Prod.fst) n ∧
      Matches code lim w g gs ∧ g.1.offset=f.1.offset ∧
      (((∃ cp k, g.2 = .copy cp k) ∧ remaining (g :: gs) = remaining (f :: fs) ∧ g.1.repBytes=f.1.repBytes) ∨
        ((remaining (f :: fs)).items = [] ∧ gs = [] ∧
          g=(⟨64,(remaining (f :: fs)).advance,f.1.offset,0,0⟩, c))) := by
  induction b generalizing f fs with
  | zero =>
    have hpos : 0<frameSteps f := by
      obtain ⟨cur,k⟩ := f
      cases k <;> simp [frameSteps,Code.steps]
    rw [stepsLeft] at hb
    omega
  | succ b ih =>
    by_cases hcp : ∃ cp k, f.2 = .copy cp k
    · exact ⟨f,fs,0,.refl _,h,rfl,.inl ⟨hcp,rfl,rfl⟩⟩
    · have hnc : ∀ cp k, f.2 ≠ .copy cp k := fun cp k he => hcp ⟨cp,k,he⟩
      obtain ⟨g,gs,hex,hm,hoff,hrb,hsp⟩ := execute_spec hc h hnc
      have hf := h.inRange.repBytes_zero hnc
      rcases hsp with ⟨hrem,hlt⟩ | ⟨hnil,rfl,hg⟩
      · obtain ⟨g',gs',n,hs,hm',hoff',hres⟩ := ih hm (by omega)
        refine ⟨g',gs',n+1,.step hf hex hs,hm',hoff'.trans hoff,?_⟩
        rw [hrem,hoff,hrb.trans hf.symm] at hres
        exact hres
      · exact ⟨g,[],1,.step hf hex (.refl _),hm,hoff,.inr ⟨hnil,rfl,hg⟩⟩

theorem settle (hc : Placed code lim w (⟨64,0,0,0,0⟩, c)) (hpos : 0 < c.size) {fs : List Frame}
    (h : Matches code lim w f fs) :
    ∃ g gs n, Settles code (f.1 :: fs.map Prod.fst) (g.1 :: gs.map Prod.fst) n ∧
      Matches code lim w g gs ∧ g.1.offset=f.1.offset ∧ (∃ cp k, g.2 = .copy cp k) ∧
      ((remaining (g :: gs) = remaining (f :: fs) ∧ g.1.repBytes=f.1.repBytes) ∨
        ((remaining (f :: fs)).items = [] ∧ g.1.repBytes=0 ∧
          remaining (g :: gs) = Layout.shift (remaining (f :: fs)).advance*c.blocks)) := by
  obtain ⟨g,gs,n,hs,hm,hoff,hres⟩ := settle_or_wrap hc _ h (le_refl _)
  rcases hres with ⟨hcp,hrem,hrb⟩ | ⟨hnil,rfl,hg⟩
  · exact ⟨g,gs,n,hs,hm,hoff,hcp,.inl ⟨hrem,hrb⟩⟩
  · have hsta : remaining [g] = Layout.shift (remaining (f :: fs)).advance*c.blocks := by rw [hg,remaining_start]
    obtain ⟨g',gs',n',hs',hm',hoff',hres'⟩ := settle_or_wrap hc _ hm (le_refl _)
    rcases hres' with ⟨hcp,hrem,hrb⟩ | ⟨hnil',-,-⟩
    · refine ⟨g',gs',n+n',hs.trans hs',hm',hoff'.trans hoff,hcp,.inr ⟨hnil,?_,?_⟩⟩
      · rw [hrb,hg]
      · rw [hrem,hsta]
    · -- a second pass without a copy would mean a layout without cells
      rw [hsta] at hnil'
      have hblc : c.blocks.items = [] := by simpa using hnil'
      have hsi : c.size=0 := by simp [Code.size,Code.layout,Layout.cells,Layout.expand,hblc]
      omega

end Steps

end PAMI.Datatype
