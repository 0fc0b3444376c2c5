import PAMI.Datatype.RandomAccess
import PAMI.Math.Pipeline

namespace PAMI.Datatype

open Function TypeMachine List Option

open PAMI.Math (Layout)

abbrev Byte := BitVec 8

/-- The packed bytes of a transfer against the displacements they are at. -/
def Move.pairs (mv : Move) : List (ℕ × Word) := mv.targets.zip mv.cells

/-- `MemCopy` from the user's buffer to the packed bytes. -/
def packMove (user : Word → Byte) (packed : ℕ → Byte) (mv : Move) : ℕ → Byte :=
  mv.pairs.foldl (fun packed p => update packed p.1 (user p.2)) packed

/-- `MemCopy` from the packed bytes to the user's buffer. -/
def unpackMove (packed : ℕ → Byte) (user : Word → Byte) (mv : Move) : Word → Byte :=
  mv.pairs.foldl (fun user p => update user p.2 (packed p.1)) user

namespace TypeMachine

/-- Successive transfers of chunks of so many bytes each, every move changing a buffer. -/
def transfers {M : Type*} (change : M → Move → M) (fuel : ℕ) :
    List ℕ → ℕ → M → TypeMachine → Option (M × TypeMachine)
  | [], _, m, tm => some (m, tm)
  | bytes :: chunks, target, m, tm =>
    (tm.transfer fuel target bytes).bind fun r =>
      transfers change fuel chunks (target + bytes) (r.1.foldl change m) r.2

/-- Successive calls of `Pack`. -/
def packs (fuel : ℕ) (chunks : List ℕ) (user : Word → Byte) (packed : ℕ → Byte)
    (tm : TypeMachine) : Option ((ℕ → Byte) × TypeMachine) :=
  tm.transfers (packMove user) fuel chunks 0 packed

/-- Successive calls of `Unpack`. -/
def unpacks (fuel : ℕ) (chunks : List ℕ) (packed : ℕ → Byte) (user : Word → Byte)
    (tm : TypeMachine) : Option ((Word → Byte) × TypeMachine) :=
  tm.transfers (unpackMove packed) fuel chunks 0 user

end TypeMachine

section Buffers

theorem foldl_update_eq {κ β ι : Type*} [DecidableEq κ] (key : ι → κ) (val : ι → β) (g : κ → β)
    (l : List ι) (h : ∀ p ∈ l, val p = g (key p)) (m : κ → β) (k : κ) :
    l.foldl (fun m p => update m (key p) (val p)) m k =
      if k ∈ l.map key then g k else m k := by
  induction l generalizing m with
  | nil => simp
  | cons p l ih =>
    rw [foldl_cons,ih (fun p hp => h p (mem_cons_of_mem _ hp)),map_cons]
    by_cases hl : k ∈ l.map key
    · rw [if_pos hl,if_pos (mem_cons_of_mem _ hl)]
    · rw [if_neg hl]
      by_cases hk : k=key p
      · rw [hk,update_self,h p (by simp),if_pos (by simp)]
      · have hn : k ∉ key p :: l.map key := by
          rw [mem_cons]
          exact fun hm => hm.elim hk hl
        rw [update_of_ne hk,if_neg hn]

theorem flatMap_pairs (moves : List Move) :
    moves.flatMap Move.pairs = (moves.flatMap Move.targets).zip (moves.flatMap Move.cells) := by
  induction moves with
  | nil => rfl
  | cons mv moves ih =>
    rw [flatMap_cons,flatMap_cons,flatMap_cons,ih,zip_append]
    · rfl
    · rw [Move.targets,Move.cells,Layout.Extent.cells_length,length_range']

def firstPairs (x : Layout Word Word) (n : ℕ) : List (ℕ × Word) := (List.range n).map fun i => (i, x.cell i)

theorem zip_window (x : Layout Word Word) (n : ℕ) :
    (List.range' 0 n).zip (x.window 0 n) = firstPairs x n := by
  rw [← range_eq_range',Layout.window,firstPairs,zip_map_right]
  have hz : (List.range n).zip (List.range n) = (List.range n).map fun i => (i, i) := by
    simp [zip_eq_zipWith,zipWith_self]
  rw [hz,List.map_map]
  apply map_congr_left
  intro i _
  simp

end Buffers

section RoundTrip

variable {c : Code}

theorem On.transfers {M : Type*} (change : M → Move → M) (hpos : 0 < c.size) (chunks : List ℕ)
    {tm : TypeMachine} {o : ℕ} (h : On True tm c o) (target : ℕ) (m : M) :
    ∃ (moves : List Move) (tm' : TypeMachine), Returns (fun fuel => tm.transfers change fuel chunks target m)
        (moves.foldl change m, tm') ∧
      moves.flatMap Move.targets = List.range' target chunks.sum ∧
      moves.flatMap Move.cells = c.layout.window o chunks.sum := by
  induction chunks generalizing tm o target m with
  | nil => refine ⟨[],tm,⟨0,fun fuel _ => rfl⟩,by simp,by simp⟩
  | cons bytes chunks ih =>
    obtain ⟨moves,tm1,⟨n,hn⟩,-,h1,htgt,hcel⟩ := h.transfer hpos target bytes
    obtain ⟨moves',tm2,⟨n',hn'⟩,htgt',hcel'⟩ := ih h1 (target+bytes) (moves.foldl change m)
    refine ⟨moves ++ moves',tm2,⟨max n n',fun fuel hf => ?_⟩,?_,?_⟩
    · have hr : tm.transfer fuel target bytes = some (moves, tm1) := hn fuel (by omega)
      have hr' := hn' fuel (by omega)
      simp only [TypeMachine.transfers,hr,Option.bind_some,foldl_append]
      exact hr'
    · rw [flatMap_append,htgt,htgt',range'_append_1,sum_cons]
    · rw [flatMap_append,hcel,hcel',← Layout.window_add,sum_cons]

theorem On.packs (hpos : 0 < c.size) (chunks : List ℕ) {tm : TypeMachine} (h : On True tm c 0)
    (user : Word → Byte) (packed : ℕ → Byte) :
    ∃ packed' tm', Returns (fun fuel => tm.packs fuel chunks user packed) (packed', tm') ∧
      ∀ i, packed' i = if i < chunks.sum then user (c.layout.cell i) else packed i := by
  obtain ⟨moves,tm',hret,htgt,hcel⟩ := h.transfers (packMove user) hpos chunks 0 packed
  refine ⟨_,tm',hret,fun i => ?_⟩
  have hfold : moves.foldl (packMove user) packed=(firstPairs c.layout chunks.sum).foldl
      (fun packed p => update packed p.1 (user p.2)) packed := by
    rw [← zip_window,← htgt,← hcel,← flatMap_pairs,foldl_flatMap]
    rfl
  rw [hfold,foldl_update_eq Prod.fst (fun p => user p.2) (fun i => user (c.layout.cell i))]
  · simp [firstPairs]
  · intro p hp
    obtain ⟨i,-,rfl⟩ := List.mem_map.mp hp
    rfl

theorem On.unpacks (hpos : 0 < c.size) (chunks : List ℕ) {tm : TypeMachine} (h : On True tm c 0)
    (packed : ℕ → Byte) (g : Word → Byte)
    (hg : ∀ i, i < chunks.sum → packed i = g (c.layout.cell i)) (user : Word → Byte) :
    ∃ user' tm', Returns (fun fuel => tm.unpacks fuel chunks packed user) (user', tm') ∧
      ∀ d, user' d = if d ∈ c.layout.window 0 chunks.sum then g d else user d := by
  obtain ⟨moves,tm',hret,htgt,hcel⟩ := h.transfers (unpackMove packed) hpos chunks 0 user
  refine ⟨_,tm',hret,fun d => ?_⟩
  have hfold : moves.foldl (unpackMove packed) user=(firstPairs c.layout chunks.sum).foldl
      (fun user p => update user p.2 (packed p.1)) user := by
    rw [← zip_window,← htgt,← hcel,← flatMap_pairs,foldl_flatMap]
    rfl
  rw [hfold,foldl_update_eq Prod.snd (fun p => packed p.1) g]
  · simp [firstPairs,Layout.window]
  · intro p hp
    obtain ⟨i,hi,rfl⟩ := List.mem_map.mp hp
    exact hg i (mem_range.mp hi)

/-- Packing with one machine and unpacking with another one, however the bytes are cut into
calls, makes the second buffer equal to the first on the first cells of the layout and leaves
every other byte alone. -/
theorem pack_unpack_roundtrip {fresh : ℕ → Memory} {heap : Word → TypeCode}
    {t contigMax : TypeCode} (h : Represents t c) (hpos : 0 < c.size) (hsi : c.size < 2^64)
    (hmax : TypeCode.contig fresh heap 1 = some contigMax) (chunks chunks' : List ℕ)
    (hsum : chunks'.sum = chunks.sum) (user user' : Word → Byte) (packed : ℕ → Byte) :
    ∃ packed' tm user'' tm', Returns (fun fuel => (new contigMax t).packs fuel chunks user packed)
        (packed', tm) ∧
      Returns (fun fuel => (new contigMax t).unpacks fuel chunks' packed' user') (user'', tm') ∧
      (∀ d, d ∈ c.layout.window 0 chunks.sum → user'' d = user d) ∧
      (∀ d, d ∉ c.layout.window 0 chunks.sum → user'' d = user' d) := by
  have hpos' := machineCode_size_pos hpos maxSize_ne
  have hsta := on_new_max hmax h hsi
  obtain ⟨packed',tm,hret,hpac⟩ := hsta.packs hpos' chunks user packed
  obtain ⟨user'',tm',hret',huser⟩ := hsta.unpacks hpos' chunks' packed' user (fun i hi => by
    rw [hpac i,if_pos (by omega)]) user'
  rw [machineCode_window h.wf maxSize_ne,hsum] at huser
  refine ⟨packed',tm,user'',tm',hret,hret',?_,?_⟩
  · intro d hd
    rw [huser d,if_pos hd]
  · intro d hd
    rw [huser d,if_neg hd]

theorem pack_unpack_twoBlocks : ∃ c, Represents twoBlocksType c ∧ c.size = 8 ∧
    ∃ packed' tm user'' tm', Returns (fun fuel => (new contigMaxType twoBlocksType).packs fuel [3, 7]
        (fun d => d.setWidth 8) (fun _ => 0)) (packed', tm) ∧
      Returns (fun fuel => (new contigMaxType twoBlocksType).unpacks fuel [5, 5] packed' (fun _ => 1)) (user'', tm') ∧
      (∀ d, d ∈ c.layout.window 0 10 → user'' d = d.setWidth 8) ∧
      (∀ d, d ∉ c.layout.window 0 10 → user'' d = 1) := by
  obtain ⟨c,hrep,hlay⟩ := twoBlocksType_compiled.represents
  have hsi : c.size=8 := by
    rw [Code.size,hlay]
    decide
  exact ⟨c,hrep,hsi,pack_unpack_roundtrip hrep (by omega) (by omega) contigMaxType_eq [3,7] [5,5] rfl _ _ _⟩

theorem toNat_nsmul_add (w : Word) (k e : ℕ) :
    (k • w+(e : Word)).toNat=(k*w.toNat+e)%2^64 := by
  rw [nsmul_eq_mul,BitVec.toNat_add,BitVec.toNat_mul]
  simp

theorem quarter_unique {i j a b : ℕ} (hi : i<4) (hj : j<4) (ha : a<4611686018427387904)
    (hb : b<4611686018427387904)
    (h : (j*13835058055282163712+b)%18446744073709551616 =
      (i*13835058055282163712+a)%18446744073709551616) : i=j := by
  omega

theorem quarters_disjoint {w : Word} (hw : w.toNat=13835058055282163712) {i j : ℕ} (hi : i<4)
    (hj : j<4) (hne : i≠j) :
    List.Disjoint ((Layout.block 4611686018427387904 (0 : Word)).items.map (i • w +ᵥ ·))
      ((Layout.block 4611686018427387904 (0 : Word)).items.map (j • w +ᵥ ·)) := by
  intro x hx hy
  simp only [Layout.block,List.map_map,List.mem_map,mem_range] at hx hy
  obtain ⟨a,ha,rfl⟩ := hx
  obtain ⟨b,hb,he⟩ := hy
  have hn : (j • w+(b : Word)).toNat=(i • w+(a : Word)).toNat := congrArg BitVec.toNat he
  rw [toNat_nsmul_add,toNat_nsmul_add,hw] at hn
  exact hne (quarter_unique hi hj ha hb hn)

theorem wholeSpaceCode_nodup : wholeSpaceCode.layout.items.Nodup := by
  have hbyt : (0x4000000000000000#64).toNat=4611686018427387904 := by simp
  have hste : (0xc000000000000000#64).toNat=13835058055282163712 := by simp
  rw [wholeSpaceCode,Code.layout_copy,Code.layout_done,mul_one,← every_block,hbyt,Layout.every,nodup_flatMap]
  constructor
  · intro i _
    apply List.Nodup.map_on
    · intro a _ b _ h
      exact add_left_cancel h
    · apply List.Nodup.map_on
      · intro a ha b hb h
        have hn := congrArg BitVec.toNat h
        simp at hn ha hb
        omega
      · exact nodup_range
  · apply nodup_range.pairwise_of_forall_ne
    intro i hi j hj hne
    exact quarters_disjoint hste (mem_range.mp hi) (mem_range.mp hj) hne

/-- A layout of as many cells as there are addresses, none of them twice: its byte count wraps
to zero, and the assertion of `Run` that there are bytes left fires at the first byte. -/
theorem pack_wholeSpace_fails :
    Represents wholeSpaceType wholeSpaceCode ∧ wholeSpaceCode.layout.items.Nodup ∧
      ¬ ∃ r, Returns (fun fuel => (new contigMaxType wholeSpaceType).packs fuel [1] (fun _ => 0) (fun _ => 0)) r := by
  refine ⟨wholeSpaceType_represents,wholeSpaceCode_nodup,?_⟩
  rintro ⟨r,n,hn⟩
  have h := hn (n + 1) (Nat.le_succ n)
  have hop : opcodeOf (wholeSpaceType.code 64)=Opcode.COPY.code := by decide
  have hcopy : copyAt wholeSpaceType.code 64 = ⟨0x4000000000000000#64,0xc000000000000000#64,4⟩ := by decide
  have hnew : new contigMaxType wholeSpaceType = ⟨wholeSpaceType,[⟨64,0,0,0,0⟩]⟩ := by
    rw [new,if_neg (show ¬ wholeSpaceType.isContiguous=true by decide)]
  rw [hnew] at h
  simp only [packs,transfers,transfer,run,hop,hcopy] at h
  exact absurd h (by simp)

end RoundTrip

section Conversion

variable {c d : Code} {fresh : ℕ → Memory} {heap : Word → TypeCode} {t u contigMax : TypeCode}

/-- What is packed with one type and unpacked with another, whose cells are apart, goes from the cells of the first layout
to those of the second, in order, however the bytes are cut into calls. -/
theorem pack_unpack_converts (ht : Represents t c) (hu : Represents u d) (hpos : 0 < c.size ∧ 0 < d.size)
    (hsi : c.size < 2^64 ∧ d.size < 2^64) (hmax : TypeCode.contig fresh heap 1 = some contigMax) (chunks chunks' : List ℕ)
    (hsum : chunks'.sum = chunks.sum) (hnod : (d.layout.window 0 chunks.sum).Nodup) (user user' : Word → Byte)
    (packed : ℕ → Byte) :
    ∃ packed' tm user'' tm', Returns (fun fuel => (new contigMax t).packs fuel chunks user packed) (packed', tm) ∧
      Returns (fun fuel => (new contigMax u).unpacks fuel chunks' packed' user') (user'', tm') ∧
      (∀ i < chunks.sum, user'' (d.layout.cell i) = user (c.layout.cell i)) ∧
      ∀ y, y ∉ d.layout.window 0 chunks.sum → user'' y = user' y := by
  have hcell {c : Code} (hwf : c.WF) (i : ℕ) : (machineCode c maxSize).layout.cell i = c.layout.cell i := by
    simpa [Layout.window] using machineCode_window hwf maxSize_ne i 1
  set cells := d.layout.window 0 chunks.sum with hcells
  -- the place of a cell in the second layout tells which byte it gets
  have hplace {i : ℕ} (hi : i < chunks.sum) : cells.idxOf (d.layout.cell i)=i := by
    have hlt : i < cells.length := by rwa [hcells,Layout.window_length]
    simpa [hcells,Layout.window] using hnod.idxOf_getElem i hlt
  obtain ⟨packed',tm,hret,hpac⟩ :=
    (on_new_max hmax ht hsi.1).packs (machineCode_size_pos hpos.1 maxSize_ne) chunks user packed
  obtain ⟨user'',tm',hret',huser⟩ := (on_new_max hmax hu hsi.2).unpacks (machineCode_size_pos hpos.2 maxSize_ne) chunks'
    packed' (fun x => packed' (cells.idxOf x)) (fun i hi => by rw [hcell hu.wf,hplace (hsum ▸ hi)]) user'
  rw [machineCode_window hu.wf maxSize_ne,hsum,← hcells] at huser
  refine ⟨packed',tm,user'',tm',hret,hret',fun i hi => ?_,fun y hy => by rw [huser,if_neg hy]⟩
  have hmem : d.layout.cell i ∈ cells := by
    rwa [← idxOf_lt_length_iff,hplace hi,hcells,Layout.window_length]
  rw [huser,if_pos hmem,hplace hi,hpac,if_pos hi,hcell ht.wf]

theorem pack_unpack_converts_twoBlocks : ∃ c packed tm user tm', Represents twoBlocksType c ∧
    Returns (fun fuel => (new contigMaxType twoBlocksType).packs fuel [3, 5] (fun x => x.setWidth 8) fun _ => 0) (packed, tm) ∧
    Returns (fun fuel => (new contigMaxType twoBlocksType).unpacks fuel [8] packed fun _ => 1) (user, tm') ∧
    ∀ i < 8, user (c.layout.cell i) = (c.layout.cell i).setWidth 8 := by
  obtain ⟨c,h,hlay⟩ := twoBlocksType_compiled.represents
  have hsi : c.size=8 := by
    rw [Code.size,hlay]
    decide
  obtain ⟨packed,tm,user,tm',hret,hret',hcel,-⟩ := pack_unpack_converts h h (by omega) (by omega) contigMaxType_eq
    [3,5] [8] rfl (by rw [hlay]; decide) (fun x => x.setWidth 8) (fun _ => 1) fun _ => 0
  exact ⟨c,packed,tm,user,tm',h,hret,hret',hcel⟩

end Conversion

open PAMI.Math (Layout Packs)

/-- So many of the packed bytes of a buffer with a layout, from an offset on. -/
def packedBytes (user : Word → Byte) (c : Code) (o n : ℕ) : List Byte := (c.layout.window o n).map user

theorem packedBytes_length (user : Word → Byte) (c : Code) (o n : ℕ) :
    (packedBytes user c o n).length=n := by
  rw [packedBytes,length_map,Layout.window_length]

theorem packedBytes_add (user : Word → Byte) (c : Code) (o n n' : ℕ) :
    packedBytes user c o (n+n') = packedBytes user c o n ++ packedBytes user c (o+n) n' := by
  rw [packedBytes,Layout.window_add,map_append]
  rfl

/-- `Pack` into a buffer of its own, which holds the bytes in the order of their moves. -/
def TypeMachine.pack (user : Word → Byte) (fuel bytes : ℕ) (tm : TypeMachine) :
    Option (List Byte × TypeMachine) :=
  (tm.transfer fuel 0 bytes).map fun r => ((r.1.flatMap Move.cells).map user, r.2)

theorem On.pack {tm : TypeMachine} {c : Code} {o : ℕ} (h : On True tm c o) (hpos : 0 < c.size)
    (user : Word → Byte) (bytes : ℕ) :
    ∃ tm', Returns (fun fuel => tm.pack user fuel bytes) (packedBytes user c o bytes, tm') ∧
      On True tm' c (o+bytes) := by
  obtain ⟨moves,tm',⟨n,hn⟩,-,h',-,hcel⟩ := h.transfer hpos 0 bytes
  refine ⟨tm',⟨n,fun fuel hf => ?_⟩,h'⟩
  have htra : tm.transfer fuel 0 bytes = some (moves, tm') := hn fuel hf
  simp only [TypeMachine.pack,htra,Option.map_some,hcel,packedBytes]

/-- `Pack` and `MoveCursor` as functions, which agree with the machine where it returns. -/
structure Packer (user : Word → Byte) where
  pack : TypeMachine → ℕ → List Byte × TypeMachine
  moveCursor : TypeMachine → Word → TypeMachine
  pack_eq : ∀ tm bytes r, Returns (fun fuel => tm.pack user fuel bytes) r → pack tm bytes = r
  moveCursor_eq : ∀ tm offset r, Returns (fun fuel => tm.moveCursor fuel offset) r → moveCursor tm offset = r

instance (user : Word → Byte) : Nonempty (Packer user) := by
  classical
  refine ⟨⟨fun tm bytes =>
      if h : ∃ r, Returns (fun fuel => tm.pack user fuel bytes) r then h.choose else ([], tm),
    fun tm offset =>
      if h : ∃ r, Returns (fun fuel => tm.moveCursor fuel offset) r then h.choose else tm,
    ?_, ?_⟩⟩
  · intro tm bytes r hr
    have h : ∃ r, Returns (fun fuel => tm.pack user fuel bytes) r := ⟨r, hr⟩
    rw [dif_pos h]
    exact h.choose_spec.unique hr
  · intro tm offset r hr
    have h : ∃ r, Returns (fun fuel => tm.moveCursor fuel offset) r := ⟨r, hr⟩
    rw [dif_pos h]
    exact h.choose_spec.unique hr

section Packer

variable {user : Word → Byte} (P : Packer user) {c : Code} {tm : TypeMachine} {o : ℕ}

theorem Packer.pack_on (hpos : 0 < c.size) (h : On True tm c o) (bytes : ℕ) :
    (P.pack tm bytes).1 = packedBytes user c o bytes ∧ On True (P.pack tm bytes).2 c (o+bytes) := by
  obtain ⟨tm',hret,h'⟩ := h.pack hpos user bytes
  rw [P.pack_eq tm bytes _ hret]
  exact ⟨rfl,h'⟩

theorem Packer.moveCursor_on (hpos : 0 < c.size) (h : On True tm c o) (ho : o<2^64)
    {offset : Word} (hoft : WithinReach c offset) :
    On True (P.moveCursor tm offset) c offset.toNat := by
  obtain ⟨tm',hret,-,h'⟩ := h.moveCursor ho hpos hoft
  rw [P.moveCursor_eq tm offset _ hret]
  exact h'

theorem Packer.packs {fresh : ℕ → Memory} {heap : Word → TypeCode} {t contigMax : TypeCode}
    (h : Represents t c) (hpos : 0 < c.size) (hsi : c.size<2^64)
    (hmax : TypeCode.contig fresh heap 1 = some contigMax) :
    ∃ At, Packs P.pack At (packedBytes user c) ∧ At (new contigMax t) 0 ∧
      ∀ offset, WithinReach (machineCode c maxSize) offset →
        At (P.moveCursor (new contigMax t) offset) offset.toNat := by
  have hpos' := machineCode_size_pos hpos maxSize_ne
  have hsta := on_new_max hmax h hsi
  refine ⟨fun tm o => On True tm (machineCode c maxSize) o,⟨?_,packedBytes_add user c,
    packedBytes_length user c⟩,hsta,?_⟩
  · intro tm o n hon
    have hpack := P.pack_on hpos' hon n
    rw [packedBytes,machineCode_window h.wf maxSize_ne] at hpack
    exact hpack
  · intro offset hoft
    exact P.moveCursor_on hpos' hsta (by decide) hoft

end Packer

/-- A type of two blocks, completed with atoms of four bytes. -/
def fourByteBlocks : TypeCode := twoBlocksType.put 56 4

theorem fourByteBlocks_represents : ∃ c, Represents fourByteBlocks c ∧ c.size=8 := by
  obtain ⟨c,hrep,hlay⟩ := twoBlocksType_compiled.represents
  refine ⟨c,hrep.put_atomSize 4,?_⟩
  rw [Code.size,hlay]
  decide

end PAMI.Datatype
