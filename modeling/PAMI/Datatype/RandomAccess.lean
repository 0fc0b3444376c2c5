import PAMI.Datatype.MachineMove
import PAMI.Datatype.TypeContig

namespace PAMI.Datatype

open TypeMachine TypeCode PAMI.Math.Layout.Extent List Option Nat BitVec

open PAMI.Math (Layout)

/-- A call with enough fuel returns the result; it passes every assertion and ends. -/
def Returns {α : Type*} (call : ℕ → Option α) (r : α) : Prop :=
  ∃ n, ∀ fuel, n ≤ fuel → call fuel = some r

section

variable {α : Type*} {call : ℕ → Option α} {r : α} (h : Returns call r)
include h

theorem Returns.unique {r' : α} (h' : Returns call r') : r=r' := by
  obtain ⟨n,hn⟩ := h
  obtain ⟨n',hn'⟩ := h'
  have he := hn (max n n') (le_max_left _ _)
  rw [hn' (max n n') (le_max_right _ _)] at he
  exact (some.inj he).symm

theorem Returns.map {β : Type*} (f : α → β) : Returns (fun fuel => (call fuel).map f) (f r) := by
  obtain ⟨n,hn⟩ := h
  refine ⟨n,fun fuel hf => ?_⟩
  simp only [hn fuel hf,map_some]

theorem Returns.bind {β : Type*} {k : ℕ → α → Option β} {b : β} (hk : Returns (fun fuel => k fuel r) b) :
    Returns (fun fuel => (call fuel).bind (k fuel)) b := by
  obtain ⟨n,hn⟩ := h
  obtain ⟨m,hm⟩ := hk
  refine ⟨max n m,fun fuel hf => ?_⟩
  simp only [hn fuel (le_trans (le_max_left _ _) hf),bind_some]
  exact hm fuel (le_trans (le_max_right _ _) hf)

end

/-- The code the machine of a type runs: its own, or that of the maximal contiguous type. -/
def machineCode (c : Code) (max : Word) : Code := if c.isContiguous then contigCode max else c

section Machine

variable {w : Prop} {c : Code} {o count : ℕ} {s : Word}

/-- The machine runs the code and is at cell number `o` of its layout. -/
structure On (w : Prop) (tm : TypeMachine) (c : Code) (o : ℕ) : Prop where
  represents : Represents tm.type c
  noWrap : w → c.NoWrap
  position : ∃ f fs q j, tm.stack = f.1 :: fs.map Prod.fst ∧
    Tracks tm.type.code tm.type.getCodeSize.toNat w c f fs q j ∧ q * c.size + j = o

theorem On.placed {tm : TypeMachine} (h : On w tm c o) :
    Placed tm.type.code tm.type.getCodeSize.toNat w (⟨64,0,0,0,0⟩, c) :=
  ⟨h.represents.code,h.represents.wf,h.noWrap⟩

theorem On.getCursor {tm : TypeMachine} (h : On w tm c o) : tm.getCursor = BitVec.ofNat 64 o := by
  obtain ⟨f,fs,q,j,hst,htr,rfl⟩ := h.position
  rw [getCursor,hst]
  exact htr.offset

theorem tracks_start {t : TypeCode} (h : Represents t c) (hw : w → c.NoWrap) :
    Tracks t.code t.getCodeSize.toNat w c (⟨64,0,0,0,0⟩, c) [] 0 0 := by
  have hblc := remaining_start c 64 0 0
  refine ⟨⟨?_,?_,by simp⟩,?_,?_,?_,?_⟩
  · intro g hg
    obtain rfl : g = _ := by simpa using hg
    exact ⟨h.code,h.wf,hw⟩
  · exact inRange_start h.wf _ _ _
  · simp
  · exact zero_le _
  · rw [cellsLeft,hblc]
    simp [Code.layout]
  · rw [hblc]
    simp [Code.layout]

theorem on_new {t contigMax : TypeCode} (h : Represents t c) (hmax : Represents contigMax (contigCode s))
    (hw : w → (machineCode c s).NoWrap) : On w (new contigMax t) (machineCode c s) 0 := by
  have hrep : Represents (new contigMax t).type (machineCode c s) := by
    have hc : t.isContiguous=c.isContiguous := h.header.contiguous
    simp only [new,machineCode,hc]
    split_ifs
    · exact hmax
    · exact h
  exact ⟨hrep,hw,_,[],0,0,rfl,tracks_start hrep hw,by simp⟩

theorem On.transfer {tm : TypeMachine} (h : On True tm c o) (hpos : 0 < c.size) (target bytes : ℕ) :
    ∃ moves tm', Returns (fun fuel => tm.transfer fuel target bytes) (moves, tm') ∧
      tm'.type=tm.type ∧ On True tm' c (o+bytes) ∧
      moves.flatMap Move.targets = List.range' target bytes ∧
      moves.flatMap Move.cells = c.layout.window o bytes := by
  obtain ⟨f,fs,q,j,hst,htr,rfl⟩ := h.position
  obtain ⟨moves,g,gs,q',j',n,htr',hsum,hrun,htgt,hcel⟩ := run_spec h.placed hpos bytes target htr
  refine ⟨moves,⟨tm.type,g.1 :: gs.map Prod.fst⟩,⟨n,fun fuel hf => ?_⟩,rfl,
    ⟨h.represents,h.noWrap,g,gs,q',j',rfl,htr',hsum⟩,htgt,hcel⟩
  simp only [transfer]
  rw [hst,hrun fuel hf,map_some]

def AtBoundary (tm : TypeMachine) : Prop := ∀ cur ∈ tm.stack.head?, cur.repBytes = 0

instance (tm : TypeMachine) : Decidable (AtBoundary tm) :=
  inferInstanceAs (Decidable (∀ cur ∈ tm.stack.head?, cur.repBytes = 0))

theorem On.enumerate {tm : TypeMachine} (h : On w tm c o) (hpos : 0 < c.size) (hcou : count<2^31)
    (hb : AtBoundary tm) : ∃ blocks tm', Returns (fun fuel => tm.enumerate fuel count) (blocks, tm') ∧
      tm'.type=tm.type ∧ AtBoundary tm' ∧
      On w tm' c (o+(blocks.flatMap cells).length) ∧
      blocks.length=count ∧ (∀ b ∈ blocks, 0<b.bytes) ∧
      blocks.flatMap cells = c.layout.window o (blocks.flatMap cells).length := by
  obtain ⟨f,fs,q,j,hst,htr,rfl⟩ := h.position
  have hf : f.1.repBytes=0 := hb f.1 (by rw [hst]; rfl)
  obtain ⟨blocks,g,gs,q',j',n,htr',hrb,hrun,hlen,hpos',hsum,hcel,-⟩ :=
    enumerateLoop_spec h.placed hpos count htr hf
  refine ⟨blocks,⟨tm.type,g.1 :: gs.map Prod.fst⟩,⟨n,fun fuel hn => ?_⟩,rfl,?_,
    ⟨h.represents,h.noWrap,g,gs,q',j',rfl,htr',hsum⟩,hlen,hpos',hcel⟩
  · simp only [enumerate,enumerateBlocks,if_pos hcou]
    rw [hst,hrun fuel hn,map_some]
  · intro cur hcur
    obtain rfl : g.1=cur := by simpa using hcur
    exact hrb

/-- The repetition of the layout that holds the offset ends below `2^64`. -/
def WithinReach (c : Code) (newOffset : Word) : Prop := (newOffset.toNat / c.size + 1) * c.size < 2^64

theorem On.moveCursor {tm : TypeMachine} (h : On w tm c o) (ho : o<2^64) (hpos : 0 < c.size)
    {newOffset : Word} (hn : WithinReach c newOffset) :
    ∃ tm', Returns (fun fuel => tm.moveCursor fuel newOffset) tm' ∧ tm'.type=tm.type ∧
      On w tm' c newOffset.toNat := by
  by_cases he : tm.getCursor=newOffset
  · refine ⟨tm,⟨0,fun fuel _ => by simp only [TypeMachine.moveCursor,if_pos he]⟩,rfl,?_⟩
    rw [← he,h.getCursor,toNat_ofNat,mod_eq_of_lt ho]
    exact h
  · have hsi : c.size<2^64 := lt_of_le_of_lt (Nat.le_mul_of_pos_left _ (succ_pos _)) hn
    rw [WithinReach,Nat.add_mul,Nat.one_mul] at hn
    have hda : tm.type.getDataSize=BitVec.ofNat 64 c.size := h.represents.header.dataSize
    have hdat : tm.type.getDataSize.toNat=c.size := by rw [hda,toNat_ofNat,mod_eq_of_lt hsi]
    have hext : tm.type.getExtent=c.layout.advance := h.represents.header.extent
    obtain ⟨r,hr⟩ : ∃ r, r=newOffset/tm.type.getDataSize := ⟨_,rfl⟩
    have hrn : r.toNat=newOffset.toNat/c.size := by rw [hr,toNat_udiv,hdat]
    have hoff : (r*tm.type.getDataSize).toNat=r.toNat*c.size := by
      rw [toNat_mul_of_lt (by rw [hdat,hrn]; omega),hdat]
    have hdm := div_add_mod newOffset.toNat c.size
    have hmod := mod_lt newOffset.toNat hpos
    rw [Nat.mul_comm,← hrn] at hdm
    rw [← hrn] at hn
    obtain ⟨f,gs,n,hmove,hrun⟩ := moveLoop_spec (w := w) newOffset c 64
      (r*tm.type.getExtent) (r*tm.type.getDataSize) []
      ⟨h.represents.code,h.represents.wf,h.noWrap⟩ (by omega) (by omega) (by omega)
    have hdisp : r*tm.type.getExtent=r.toNat • c.layout.advance := by rw [hext,toNat_nsmul]
    have hsta := remaining_start c 64 (r*tm.type.getExtent) (r*tm.type.getDataSize)
    rw [map_nil,append_nil] at hrun
    refine ⟨⟨tm.type,f.1 :: gs.map Prod.fst⟩,⟨n,fun fuel hf => ?_⟩,rfl,h.represents,
      h.noWrap,f,gs,r.toNat,newOffset.toNat%c.size,rfl,
      ⟨⟨hmove.placed,hmove.inRange,hmove.waits⟩,?_,hmod.le,?_,?_⟩,hdm⟩
    · have hne : ¬ tm.type.getDataSize=0 := by
        intro h0
        rw [h0] at hdat
        exact hpos.ne hdat
      simp only [TypeMachine.moveCursor,if_neg he,if_neg hne,← hr]
      rw [hrun fuel hf,map_some]
    · rw [hmove.cursor,hdm]
      exact word_ofNat newOffset
    · have hc := hmove.cells
      rw [append_nil,cellsLeft_startFrame,startFrame,hsta,hdisp] at hc
      have hd : newOffset.toNat-(r*tm.type.getDataSize).toNat=newOffset.toNat%c.size := by omega
      rw [hc,hd,← cells_items,Layout.cells_mul]
      simp [Code.layout,vadd_eq_add]
    · have ha := hmove.advance
      rw [append_nil,startFrame,hsta,hdisp] at ha
      rw [ha,succ_nsmul]
      simp [Code.layout]

/-- The machines that a mix of transfers, moves and enumerations can make of a machine, as long
as the cursor is counted without wrapping. -/
inductive Reachable (c : Code) (start : TypeMachine) : TypeMachine → Prop
  | start : Reachable c start start
  | transfer {tm tm' : TypeMachine} {target bytes : ℕ} {moves : List Move}
      (h : Reachable c start tm) (ho : tm.getCursor.toNat + bytes < 2^64)
      (hr : Returns (fun fuel => tm.transfer fuel target bytes) (moves, tm')) :
      Reachable c start tm'
  | move {tm tm' : TypeMachine} {newOffset : Word} (h : Reachable c start tm)
      (ho : WithinReach c newOffset)
      (hr : Returns (fun fuel => tm.moveCursor fuel newOffset) tm') : Reachable c start tm'
  | enumerate {tm tm' : TypeMachine} {count : ℕ} {blocks : List (Layout.Extent Word)}
      (h : Reachable c start tm)
      (ho : tm.getCursor.toNat + (blocks.flatMap cells).length < 2^64)
      (hr : Returns (fun fuel => tm.enumerate fuel count) (blocks, tm')) : Reachable c start tm'

theorem enumerate_returns {tm tm' : TypeMachine} {blocks : List (Layout.Extent Word)} {f : Cursor}
    {fs : List Cursor} (hst : tm.stack = f :: fs)
    (hr : Returns (fun fuel => tm.enumerate fuel count) (blocks, tm')) :
    count<2^31 ∧ (count=0 ∨ AtBoundary tm) := by
  obtain ⟨n,hn⟩ := hr
  have h := hn (n+1) (le_succ n)
  simp only [enumerate,enumerateBlocks] at h
  by_cases hc : count<2^31
  · refine ⟨hc,?_⟩
    by_cases hz : count=0
    · exact .inl hz
    · right
      intro cur hcur
      rw [hst] at hcur
      obtain rfl : f=cur := by simpa using hcur
      by_contra hne
      rw [if_pos hc,hst,enumerateLoop,if_neg hz] at h
      simp only [if_pos (show f.repBytes≠0 from hne)] at h
      cases h
  · rw [if_neg hc] at h
    cases h

theorem Reachable.on {start tm : TypeMachine} (hpos : 0 < c.size) (hsta : On True start c 0)
    (h : Reachable c start tm) : On True tm c tm.getCursor.toNat := by
  have hon {tm : TypeMachine} {o : ℕ} (ho : o<2^64) (h : On True tm c o) :
      On True tm c tm.getCursor.toNat := by
    rw [h.getCursor,toNat_ofNat,mod_eq_of_lt ho]
    exact h
  induction h with
  | start => exact hon (by decide) hsta
  | @transfer tm tm' target bytes moves _ ho hr ih =>
    obtain ⟨moves',tm1,hr1,-,h1,-⟩ := ih.transfer hpos target bytes
    obtain ⟨-,rfl⟩ := Prod.mk.inj (hr.unique hr1)
    exact hon ho h1
  | @move tm tm' newOffset _ ho hr ih =>
    obtain ⟨tm1,hr1,-,h1⟩ := ih.moveCursor (isLt _) hpos ho
    obtain rfl := hr.unique hr1
    exact hon (isLt _) h1
  | @enumerate tm tm' count blocks _ ho hr ih =>
    obtain ⟨f,fs,q,j,hst,-⟩ := ih.position
    obtain ⟨hc,hb⟩ := enumerate_returns hst hr
    rcases hb with rfl | hb
    · -- nothing was enumerated
      have hzr : Returns (fun fuel => tm.enumerate fuel 0)
          ([], (⟨tm.type,tm.stack⟩ : TypeMachine)) := by
        refine ⟨1,fun fuel hf => ?_⟩
        obtain ⟨fuel,rfl⟩ : ∃ k, fuel=k+1 := ⟨fuel-1,by omega⟩
        simp [TypeMachine.enumerate,enumerateBlocks,enumerateLoop]
      obtain ⟨-,rfl⟩ := Prod.mk.inj (hr.unique hzr)
      exact ih
    · obtain ⟨blocks',tm1,hr1,-,-,h1,-⟩ := ih.enumerate hpos hc hb
      obtain ⟨rfl,rfl⟩ := Prod.mk.inj (hr.unique hr1)
      exact hon ho h1

theorem machineCode_window (hwf : c.WF) (hs : s≠0) (o n : ℕ) :
    (machineCode c s).layout.window o n = c.layout.window o n := by
  by_cases hc : c.isContiguous=true
  · obtain ⟨cp,rfl,he,hr⟩ := Code.eq_of_isContiguous hc
    have hcp : Code.copy cp .done = contigCode cp.bytes := by
      rw [contigCode,← hr]
      congr 1
      cases cp
      simp_all
    rw [machineCode,if_pos hc,hcp]
    exact contigCode_window hs hwf.1 o n
  · rw [machineCode,if_neg hc]

theorem machineCode_size_pos (hpos : 0 < c.size) (hs : s≠0) : 0<(machineCode c s).size := by
  rw [machineCode]
  split_ifs
  · rw [contigCode,Code.size_copy]
    exact Nat.add_pos_left (mul_pos (show 0<(1 : Word).toNat by decide) (toNat_pos hs)) _
  · exact hpos

theorem machineCode_noWrap (hwf : c.WF) (hsi : c.size<2^64) (s : Word) : (machineCode c s).NoWrap := by
  rw [machineCode]
  split_ifs
  · refine ⟨?_,trivial⟩
    have hs := s.isLt
    show (1 : Word).toNat*s.toNat<2^64
    rw [show (1 : Word).toNat=1 from rfl,one_mul]
    exact hs
  · exact Code.noWrap_of_size hwf hsi

/-- The data size of the maximal contiguous type. -/
abbrev maxSize : Word := contigSize 1

theorem maxSize_ne : maxSize≠0 := (contigSize_spec (by decide)).1

section

variable {fresh : ℕ → Memory} {heap : Word → TypeCode} {t contigMax : TypeCode}
  (hmax : contig fresh heap 1=some contigMax)
include hmax

theorem max_represents : Represents contigMax (contigCode maxSize) := by
  obtain ⟨t,ht,hrep⟩ := contig_represents fresh heap (show (1 : Word)≠0 by decide)
  exact some.inj (ht.symm.trans hmax) ▸ hrep

theorem on_new_max (h : Represents t c) (hsi : c.size<2^64) : On True (new contigMax t) (machineCode c maxSize) 0 :=
  on_new h (max_represents hmax) fun _ => machineCode_noWrap h.wf hsi _

end

/-- Random access agrees with sequential access: whatever calls led to the machine, a transfer visits the next cells, a move
gets to its offset, and an enumeration at the boundary of a block returns the next blocks. -/
theorem random_access {fresh : ℕ → Memory} {heap : Word → TypeCode} {t contigMax : TypeCode}
    {c : Code} (h : Represents t c) (hpos : 0 < c.size) (hsi : c.size < 2^64)
    (hmax : contig fresh heap 1 = some contigMax) {tm : TypeMachine}
    (hr : Reachable (machineCode c maxSize) (new contigMax t) tm) :
    (∀ target bytes, tm.getCursor.toNat + bytes < 2^64 →
      ∃ moves tm', Returns (fun fuel => tm.transfer fuel target bytes) (moves, tm') ∧
        moves.flatMap Move.targets = List.range' target bytes ∧
        moves.flatMap Move.cells = c.layout.window tm.getCursor.toNat bytes ∧
        tm'.getCursor.toNat = tm.getCursor.toNat + bytes) ∧
    (∀ newOffset, WithinReach (machineCode c maxSize) newOffset →
      ∃ tm', Returns (fun fuel => tm.moveCursor fuel newOffset) tm' ∧ tm'.getCursor = newOffset) ∧
    (∀ count, count < 2^31 → AtBoundary tm →
      ∃ blocks tm', Returns (fun fuel => tm.enumerate fuel count) (blocks, tm') ∧
        blocks.length = count ∧ blocks.flatMap cells =
          c.layout.window tm.getCursor.toNat (blocks.flatMap cells).length) := by
  have hpos' := machineCode_size_pos hpos maxSize_ne
  have hsta := on_new_max hmax h hsi
  have hon := hr.on hpos' hsta
  refine ⟨?_,?_,?_⟩
  · intro target bytes ho
    obtain ⟨moves,tm',hret,-,hon',htgt,hcel⟩ := hon.transfer hpos' target bytes
    refine ⟨moves,tm',hret,htgt,?_,?_⟩
    · rw [hcel,machineCode_window h.wf maxSize_ne]
    · rw [hon'.getCursor,toNat_ofNat,mod_eq_of_lt ho]
  · intro newOffset hn
    obtain ⟨tm',hret,-,hon'⟩ := hon.moveCursor (isLt _) hpos' hn
    refine ⟨tm',hret,?_⟩
    rw [hon'.getCursor]
    exact (word_ofNat newOffset).symm
  · intro count hcou hb
    obtain ⟨blocks,tm',hret,-,-,-,hlen,-,hcel⟩ := hon.enumerate hpos' hcou hb
    refine ⟨blocks,tm',hret,hlen,?_⟩
    rw [hcel,Layout.window_length,machineCode_window h.wf maxSize_ne]

/-- The maximal contiguous type, in cleared storage. -/
def contigMaxType : TypeCode := (contig clearedStorage noSubTypes 1).getD (init clearedStorage)

theorem contigMaxType_eq : contig clearedStorage noSubTypes 1 = some contigMaxType := by
  obtain ⟨t,ht,-⟩ := contig_represents clearedStorage noSubTypes (show (1 : Word)≠0 by decide)
  rw [contigMaxType,ht,getD_some]

theorem random_access_twoBlocks : ∃ c, Represents twoBlocksType c ∧ c.size = 8 ∧
    ∃ moves tm', Returns (fun fuel => (new contigMaxType twoBlocksType).transfer fuel 0 20) (moves, tm') ∧
      moves.flatMap Move.targets = List.range' 0 20 ∧
      moves.flatMap Move.cells = c.layout.window 0 20 ∧ tm'.getCursor.toNat = 0 + 20 := by
  obtain ⟨c,hrep,hlay⟩ := twoBlocksType_compiled.represents
  have hsi : c.size=8 := by
    rw [Code.size,hlay]
    decide
  refine ⟨c,hrep,hsi,?_⟩
  exact (random_access hrep (by omega) (by omega) contigMaxType_eq .start).1 0 20 (by decide)

def insideBlock : TypeMachine := ⟨twoBlocksType, [⟨64, 0, 1, 0, 1⟩]⟩

/-- A transfer of one byte leaves the machine inside a block, and there the assertion of
`EnumerateBlocks` fires. -/
theorem enumerate_inside_block :
    Reachable (.copy ⟨4, 8, 2⟩ .done) (new contigMaxType twoBlocksType) insideBlock ∧
      ¬ ∃ r, Returns (fun fuel => insideBlock.enumerate fuel 1) r := by
  have hop : opcodeOf (twoBlocksType.code 64)=Opcode.COPY.code := by decide
  have hcopy : copyAt twoBlocksType.code 64 = ⟨4,8,2⟩ := by decide
  have hnew : new contigMaxType twoBlocksType = ⟨twoBlocksType,[⟨64,0,0,0,0⟩]⟩ := by
    rw [new,if_neg (show ¬ twoBlocksType.isContiguous=true by decide)]
  constructor
  · have hret : Returns (fun fuel => (new contigMaxType twoBlocksType).transfer fuel 0 1)
          ([⟨0,⟨0,1⟩⟩], insideBlock) := by
      refine ⟨2,fun fuel hf => ?_⟩
      obtain ⟨fuel,rfl⟩ : ∃ d, fuel=d + 1 + 1 := ⟨fuel - 2,by omega⟩
      rw [hnew]
      simp only [transfer,run,hop,hcopy]
      rfl
    refine .transfer .start ?_ hret
    rw [hnew]
    decide
  · rintro ⟨r,n,hn⟩
    have h := hn (n + 1) (le_succ n)
    simp only [enumerate,enumerateBlocks,insideBlock,enumerateLoop] at h
    exact absurd h (by simp)

end Machine

/-- The completed types: built from completed types, nested to any depth, by a run that loses no
link and whose code is addressed without wrapping. -/
inductive Completed : TypeCode → Prop
  | mk (fresh : ℕ → Memory) (heap : Word → TypeCode) (calls : List AddCall) (u : TypeCode)
      (hsub : ∀ sub, Uses calls sub → Completed (heap sub))
      (hlnk : LinksSurvive fresh heap calls) (hcd : 72 + callsWeight heap calls < 2^64)
      (hu : compile fresh heap calls = some u) : Completed u

theorem compile_of_represents (fresh : ℕ → Memory) (heap : Word → TypeCode) {calls : List AddCall}
    (hsub : ∀ sub, Uses calls sub → ∃ c, Represents (heap sub) c)
    (hlnk : LinksSurvive fresh heap calls) (hcd : 72+callsWeight heap calls < 2^64) :
    ∃ u c, compile fresh heap calls = some u ∧ Represents u c := by
  choose! κ hκ using hsub
  obtain ⟨u,c,hu,hrep,-⟩ := compile_represents fresh heap κ hκ hlnk hcd
  exact ⟨u,c,hu,hrep⟩

theorem Completed.represents {t : TypeCode} (h : Completed t) : ∃ c, Represents t c := by
  induction h with
  | mk fresh heap calls u hsub hlnk hcd hu ih =>
    obtain ⟨u',c,hu',hrep⟩ := compile_of_represents fresh heap ih hlnk hcd
    obtain rfl := some.inj (hu.symm.trans hu')
    exact ⟨c,hrep⟩

namespace Code

theorem numBlocks_le_size {c : Code} (hwf : c.WF) : c.numBlocks ≤ c.size := by
  induction c with
  | done => exact le_refl 0
  | copy cp k ih =>
    obtain ⟨hbyt,-,-,hk⟩ := hwf
    rw [numBlocks_copy,size_copy]
    exact Nat.add_le_add (Nat.le_mul_of_pos_right _ (toNat_pos hbyt)) (ih hk)
  | shift s k ih =>
    rw [numBlocks_shift,size_shift]
    exact ih hwf
  | call sub stride reps k ihsub ih =>
    obtain ⟨-,hsub,hk⟩ := hwf
    rw [numBlocks_call,size_call]
    exact Nat.add_le_add (Nat.mul_le_mul_left _ (ihsub hsub)) (ih hk)

theorem isSimple_iff (c : Code) : c.isSimple=true ↔ ∃ cp, c = copy cp done := by
  constructor
  · intro h
    match c, h with
    | copy cp done, _ => exact ⟨cp,rfl⟩
  · rintro ⟨cp,rfl⟩
    rfl

theorem isContiguous_iff (c : Code) :
    c.isContiguous=true ↔ ∃ cp, c = copy cp done ∧ cp.reps=1 ∧ cp.bytes=c.layout.advance := by
  have hadv (cp : Copy) (hr : cp.reps=1) : (copy cp done).layout.advance=cp.stride := by
    rw [layout_copy,layout_done,mul_one,hr]
    simp
  constructor
  · intro h
    obtain ⟨cp,rfl,hb,hr⟩ := eq_of_isContiguous h
    exact ⟨cp,rfl,hr,by rw [hadv cp hr,hb]⟩
  · rintro ⟨cp,rfl,hr,hb⟩
    rw [hadv cp hr] at hb
    simp [isContiguous,hb,hr]

end Code

theorem Represents.enumerate_pass {t : TypeCode} {c : Code} (h : Represents t c)
    (hlt : c.numBlocks<2^31) :
    ∃ stack, Returns (fun fuel => enumerateBlocks t.code fuel c.numBlocks [⟨64,0,0,0,0⟩])
      (c.blocks.items, stack) ∧ ∀ b ∈ c.blocks.items, 0<b.bytes := by
  by_cases hpos : 0 < c.size
  · have hsta := tracks_start (w := False) h False.elim
    have hrem := remaining_start c 64 0 0
    obtain ⟨blocks,g,gs,q',j',n,-,-,hrun,hlen,hbyt,-,-,hpass⟩ :=
      enumerateLoop_spec ⟨h.code,h.wf,False.elim⟩ hpos c.numBlocks hsta rfl
    have hite : (remaining [((⟨64,0,0,0,0⟩ : Cursor), c)]).items=c.blocks.items := by
      rw [hrem,Layout.shift_zero,one_mul]
    rw [hite] at hpass
    have hall := hpass (le_refl _)
    have hblc : blocks=c.blocks.items := by
      have hl := congrArg List.length hall
      rw [length_append,hlen,Code.numBlocks] at hl
      have hnil : (remaining (g :: gs)).items = [] := length_eq_zero_iff.mp (by omega)
      rw [hnil,append_nil] at hall
      exact hall
    rw [← hblc]
    refine ⟨g.1 :: gs.map Prod.fst,⟨n,fun fuel hf => ?_⟩,hbyt⟩
    simp only [enumerateBlocks,if_pos hlt]
    exact hrun fuel hf
  · have hzr : c.numBlocks=0 := by
      have hle := Code.numBlocks_le_size h.wf
      omega
    rw [length_eq_zero_iff.mp hzr,hzr]
    refine ⟨[⟨64,0,0,0,0⟩],⟨1,fun fuel hf => ?_⟩,by simp⟩
    obtain ⟨fuel,rfl⟩ : ∃ k, fuel=k+1 := ⟨fuel-1,by omega⟩
    simp [enumerateBlocks,enumerateLoop]

/-- The header of every completed type is exact, and `Complete` passes its assertions: data size, extent, blocks and unit are
those of one pass of `EnumerateBlocks`, and the depth and the two flags those of the code. -/
theorem header_exact (fresh : ℕ → Memory) (heap : Word → TypeCode) (calls : List AddCall)
    (hsub : ∀ sub, Uses calls sub → Completed (heap sub)) (hlnk : LinksSurvive fresh heap calls)
    (hcd : 72 + callsWeight heap calls < 2^64) :
    ∃ u c x, compile fresh heap calls = some u ∧
      CodeAt u.code u.getCodeSize.toNat 64 c ∧ Returns (fun fuel => pass u.code fuel 64) x ∧
      (x.items.length < 2^64 → u.getDataSize.toNat = x.items.length) ∧
      u.getExtent = x.advance ∧
      (x.items.length < 2^64 → u.getNumBlocks.toNat < 2^31 →
        ∃ blocks stack, Returns (fun fuel =>
            enumerateBlocks u.code fuel u.getNumBlocks.toNat [⟨64, 0, 0, 0, 0⟩]) (blocks, stack) ∧
          blocks.length = u.getNumBlocks.toNat ∧ (∀ b ∈ blocks, 0 < b.bytes) ∧
          blocks.flatMap cells = x.items) ∧
      u.getUnit.toNat = c.unit ∧ (c.depth < 2^32 → u.getDepth.toNat = c.depth) ∧
      (u.isSimple = true ↔ ∃ cp, c = .copy cp .done) ∧
      (u.isContiguous = true ↔ ∃ cp, c = .copy cp .done ∧ cp.reps = 1 ∧ cp.bytes = u.getExtent) := by
  obtain ⟨u,c,hu,hrep⟩ := compile_of_represents fresh heap
    (fun sub hs => (hsub sub hs).represents) hlnk hcd
  have hsi : u.getDataSize=BitVec.ofNat 64 c.size := hrep.header.dataSize
  have hblc : u.getNumBlocks=BitVec.ofNat 64 c.numBlocks := hrep.header.numBlocks
  have hext : u.getExtent=c.layout.advance := hrep.header.extent
  refine ⟨u,c,c.layout,hu,hrep.code,pass_eq_layout hrep.code,?_,hext,?_,
    hrep.header.unit,hrep.header.depth,?_,?_⟩
  · intro hlt
    rw [hsi,toNat_ofNat]
    exact mod_eq_of_lt hlt
  · intro hlt hcou
    have hnum : u.getNumBlocks.toNat=c.numBlocks := by
      have hle := Code.numBlocks_le_size hrep.wf
      rw [hblc,toNat_ofNat,mod_eq_of_lt (lt_of_le_of_lt hle hlt)]
    rw [hnum] at hcou ⊢
    obtain ⟨stack,hret,hbyt⟩ := hrep.enumerate_pass hcou
    exact ⟨c.blocks.items,stack,hret,rfl,hbyt,rfl⟩
  · have hflag : u.isSimple=c.isSimple := hrep.header.simple
    rw [hflag]
    exact c.isSimple_iff
  · have hflag : u.isContiguous=c.isContiguous := hrep.header.contiguous
    rw [hflag,hext]
    exact c.isContiguous_iff

theorem header_exact_threePairs :
    ∃ u c x, compile clearedStorage (fun _ => twoBlocksType) threePairs = some u ∧
      CodeAt u.code u.getCodeSize.toNat 64 c ∧ Returns (fun fuel => pass u.code fuel 64) x ∧
      (x.items.length < 2^64 → u.getDataSize.toNat = x.items.length) ∧
      u.getExtent = x.advance ∧
      (x.items.length < 2^64 → u.getNumBlocks.toNat < 2^31 →
        ∃ blocks stack, Returns (fun fuel =>
            enumerateBlocks u.code fuel u.getNumBlocks.toNat [⟨64, 0, 0, 0, 0⟩]) (blocks, stack) ∧
          blocks.length = u.getNumBlocks.toNat ∧ (∀ b ∈ blocks, 0 < b.bytes) ∧
          blocks.flatMap cells = x.items) ∧
      u.getUnit.toNat = c.unit ∧ (c.depth < 2^32 → u.getDepth.toNat = c.depth) ∧
      (u.isSimple = true ↔ ∃ cp, c = .copy cp .done) ∧
      (u.isContiguous = true ↔
        ∃ cp, c = .copy cp .done ∧ cp.reps = 1 ∧ cp.bytes = u.getExtent) := by
  refine header_exact clearedStorage (fun _ => twoBlocksType) threePairs (fun _ _ => ?_)
    (linksSurvive_singleton (i := .call ⟨0,100,3⟩) (by decide)) (by decide)
  refine .mk clearedStorage noSubTypes twoBlocks twoBlocksType ?_ ?_ (by decide) ?_
  · rintro sub ⟨stride,reps,h⟩
    simp [twoBlocks] at h
  · exact linksSurvive_singleton (i := .copy ⟨4,8,2⟩) (by decide)
  · exact twoBlocksType_eq

/-- Where one pass has as many cells as there are addresses, the data size in the header is 0. -/
theorem dataSize_wholeSpace_wraps :
    compile clearedStorage noSubTypes wholeSpace = some wholeSpaceType ∧
      ∃ x, Returns (fun fuel => pass wholeSpaceType.code fuel 64) x ∧ x.items.length = 2^64 ∧
        wholeSpaceType.getDataSize.toNat = 0 := by
  refine ⟨?_,wholeSpaceCode.layout,pass_eq_layout wholeSpaceType_represents.code,?_,?_⟩
  · have hso : (compile clearedStorage noSubTypes wholeSpace).isSome=true := by decide
    obtain ⟨u,hu⟩ := isSome_iff_exists.mp hso
    rw [wholeSpaceType,hu,getD_some]
  · show wholeSpaceCode.size=2^64
    rw [wholeSpaceCode,Code.size_copy,Code.size_done]
    decide
  · decide

end PAMI.Datatype
