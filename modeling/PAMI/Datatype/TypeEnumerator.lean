import PAMI.Datatype.RandomAccess

namespace PAMI.Datatype

open List Option

open PAMI.Math (Layout)

namespace TypeEnumerator

/-- The number of blocks each side enumerates at a time. -/
def arraySize : ℕ := 128

/-- A machine with its `state_t`: the blocks enumerated last and the current one among them. -/
structure Side where
  machine : TypeMachine
  blocks : List (Layout.Extent Word)
  index : ℕ

namespace Side

def fill (fuel : ℕ) (machine : TypeMachine) : Option Side :=
  (machine.enumerate fuel arraySize).map fun r => ⟨r.2, r.1, 0⟩

/-- Take bytes off the current block, with the next set of blocks when this one is empty. -/
def take (fuel size : ℕ) (s : Side) : Option Side := (s.blocks[s.index]?).bind fun b =>
    let b' : Layout.Extent Word := ⟨b.disp + size, b.bytes - size⟩
    let index := s.index + if b'.bytes = 0 then 1 else 0
    if index = arraySize then fill fuel s.machine
    else some ⟨s.machine, s.blocks.set s.index b', index⟩

end Side

/-- What `next` returns: a piece that is contiguous in both types. -/
structure Piece where
  inputOffset : Word
  outputOffset : Word
  bytes : ℕ

def Piece.pairs (p : Piece) : List (Word × Word) :=
  (Layout.Extent.cells ⟨p.inputOffset, p.bytes⟩).zip (Layout.Extent.cells ⟨p.outputOffset, p.bytes⟩)

end TypeEnumerator

/-- A `TypeEnumerator`: its input side and its output side. -/
structure TypeEnumerator where
  input : TypeEnumerator.Side
  output : TypeEnumerator.Side

namespace TypeEnumerator

def new (fuel : ℕ) (contigMax inputType outputType : TypeCode) : Option TypeEnumerator :=
  (Side.fill fuel (TypeMachine.new contigMax inputType)).bind fun input =>
    (Side.fill fuel (TypeMachine.new contigMax outputType)).map fun output => ⟨input, output⟩

/-- One call of `next`. -/
def next (fuel : ℕ) (e : TypeEnumerator) : Option (Piece × TypeEnumerator) :=
  (e.input.blocks[e.input.index]?).bind fun i => (e.output.blocks[e.output.index]?).bind fun o =>
      let size := min i.bytes o.bytes
      (e.input.take fuel size).bind fun input =>
        (e.output.take fuel size).map fun output => (⟨i.disp, o.disp, size⟩, ⟨input, output⟩)

/-- So many calls of `next` in a row. -/
def nexts (fuel : ℕ) : ℕ → TypeEnumerator → Option (List Piece × TypeEnumerator)
  | 0, e => some ([], e)
  | n + 1, e => (e.next fuel).bind fun r => (nexts fuel n r.2).map fun r' => (r.1 :: r'.1, r'.2)

section Cache

variable {c : Code} {p : ℕ}

def Side.left (s : Side) : List Word := (s.blocks.drop s.index).flatMap Layout.Extent.cells

/-- The blocks of a side are the cells of the layout from cell `p` on, none of them empty, and its
machine goes on where they end. -/
structure Side.Caches (s : Side) (c : Code) (p : ℕ) : Prop where
  length : s.blocks.length = arraySize
  index : s.index < arraySize
  pos : ∀ b ∈ s.blocks.drop s.index, 0 < b.bytes
  cells : s.left = c.layout.window p s.left.length
  on : On False s.machine c (p + s.left.length)
  boundary : AtBoundary s.machine

theorem Side.fill_spec {tm : TypeMachine} (h : On False tm c p) (hpos : 0 < c.size)
    (hb : AtBoundary tm) :
    ∃ s, Returns (fun fuel => Side.fill fuel tm) s ∧ s.Caches c p := by
  obtain ⟨blocks,tm',⟨n,hn⟩,-,hb',hon,hlen,hbyt,hcel⟩ :=
    h.enumerate hpos (show arraySize<2^31 by decide) hb
  refine ⟨⟨tm',blocks,0⟩,⟨n,fun fuel hf => ?_⟩,hlen,show 0<arraySize by decide,?_,?_,?_,hb'⟩
  · have hr : tm.enumerate fuel arraySize = some (blocks, tm') := hn fuel hf
    simp only [Side.fill,hr,map_some]
  · exact hbyt
  · exact hcel
  · exact hon

theorem window_append {x : Layout Word Word} {l l' : List Word}
    (h : l ++ l' = x.window p (l ++ l').length) :
    l = x.window p l.length ∧ l' = x.window (p+l.length) l'.length := by
  rw [length_append,Layout.window_add] at h
  exact append_inj h (Layout.window_length _ _ _).symm

theorem Side.Caches.current {s : Side} (h : s.Caches c p) :
    ∃ b, s.blocks[s.index]? = some b ∧ 0<b.bytes ∧ s.blocks.drop s.index = b :: s.blocks.drop (s.index+1) := by
  have hlt : s.index < s.blocks.length := by
    rw [h.length]
    exact h.index
  have hdrop := drop_eq_getElem_cons hlt
  refine ⟨s.blocks[s.index],List.getElem?_eq_getElem hlt,?_,hdrop⟩
  apply h.pos
  rw [hdrop]
  exact mem_cons_self

theorem Side.Caches.take {s : Side} (h : s.Caches c p) (hpos : 0 < c.size)
    {b : Layout.Extent Word} (hb : s.blocks[s.index]? = some b) {n : ℕ} (hn : n≤b.bytes) :
    Layout.Extent.cells ⟨b.disp,n⟩ = c.layout.window p n ∧
      ∃ s', Returns (fun fuel => s.take fuel n) s' ∧ s'.Caches c (p+n) := by
  obtain ⟨b',hb',-,hdrop⟩ := h.current
  obtain rfl : b=b' := some.inj (hb.symm.trans hb')
  have hlt : s.index < s.blocks.length := by
    rw [h.length]
    exact h.index
  obtain ⟨rest,hrs⟩ : ∃ r, r=s.blocks.drop (s.index+1) := ⟨_,rfl⟩
  rw [← hrs] at hdrop
  have hlf : s.left=Layout.Extent.cells ⟨b.disp,n⟩ ++
      (Layout.Extent.cells ⟨b.disp+n,b.bytes-n⟩ ++ rest.flatMap Layout.Extent.cells) := by
    rw [Side.left,hdrop,flatMap_cons,← append_assoc,← Layout.Extent.cells_add,Nat.add_sub_cancel' hn]
  have hcel := h.cells
  have hon := h.on
  rw [hlf] at hcel hon
  obtain ⟨hfir,hla⟩ := window_append hcel
  rw [length_append,Layout.Extent.cells_length,← add_assoc] at hon
  rw [Layout.Extent.cells_length] at hfir hla
  refine ⟨hfir,?_⟩
  have hta : ∀ x ∈ rest, 0<x.bytes := fun x hx => h.pos x (by rw [hdrop]; exact mem_cons_of_mem _ hx)
  by_cases hz : b.bytes-n=0
  · -- the block is used up
    have hemp : Layout.Extent.cells ⟨b.disp+n,b.bytes-n⟩ = ([] : List Word) := by
      rw [hz]
      rfl
    rw [hemp,nil_append] at hla hon
    by_cases hi : s.index+1=arraySize
    · have hnil : rest = [] := by rw [hrs,hi,← h.length,drop_length]
      rw [hnil] at hon
      obtain ⟨s',⟨m,hm⟩,hs'⟩ := Side.fill_spec (p := p+n) hon hpos h.boundary
      refine ⟨s',⟨m,fun fuel hf => ?_⟩,hs'⟩
      simp only [Side.take,hb,bind_some,hz,if_true,hi]
      exact hm fuel hf
    · refine ⟨⟨s.machine,s.blocks.set s.index ⟨b.disp+n,b.bytes-n⟩,s.index+1⟩,⟨0,fun fuel _ => ?_⟩,?_⟩
      · simp only [Side.take,hb,bind_some,hz,if_true,if_neg hi]
      · have hd : (s.blocks.set s.index ⟨b.disp+n,b.bytes-n⟩).drop (s.index+1)=rest := by
          rw [hrs]
          exact drop_set_of_lt (Nat.lt_succ_self _)
        have hl : Side.left ⟨s.machine,s.blocks.set s.index ⟨b.disp+n,b.bytes-n⟩,
            s.index+1⟩ = rest.flatMap Layout.Extent.cells := by
          rw [Side.left,hd]
        refine ⟨?_,?_,?_,?_,?_,h.boundary⟩
        · exact length_set.trans h.length
        · exact lt_of_le_of_ne h.index hi
        · rw [hd]
          exact hta
        · rw [hl]
          exact hla
        · rw [hl]
          exact hon
  · refine ⟨⟨s.machine,s.blocks.set s.index ⟨b.disp+n,b.bytes-n⟩,s.index⟩,⟨0,fun fuel _ => ?_⟩,?_⟩
    · simp only [Side.take,hb,bind_some,if_neg hz,add_zero,if_neg h.index.ne]
    · have hd : (s.blocks.set s.index ⟨b.disp+n,b.bytes-n⟩).drop s.index = ⟨b.disp+n,b.bytes-n⟩ :: rest := by
        rw [drop_eq_getElem_cons (by rw [length_set]; exact hlt),
          getElem_set_self,drop_set_of_lt (Nat.lt_succ_self _),hrs]
      have hl : Side.left ⟨s.machine,s.blocks.set s.index ⟨b.disp+n,b.bytes-n⟩,s.index⟩ =
          Layout.Extent.cells ⟨b.disp+n,b.bytes-n⟩ ++ rest.flatMap Layout.Extent.cells := by
        rw [Side.left,hd,flatMap_cons]
      refine ⟨?_,h.index,?_,?_,?_,h.boundary⟩
      · exact length_set.trans h.length
      · rw [hd]
        intro x hx
        rcases mem_cons.mp hx with rfl | hx
        · exact pos_of_ne_zero hz
        · exact hta x hx
      · rw [hl]
        exact hla
      · rw [hl]
        exact hon

end Cache

section Pairing

variable {c1 c2 : Code} {p : ℕ}

structure Pairs (e : TypeEnumerator) (c1 c2 : Code) (p : ℕ) : Prop where
  input : e.input.Caches c1 p
  output : e.output.Caches c2 p

theorem Pairs.next {e : TypeEnumerator} (h : e.Pairs c1 c2 p) (hpos1 : 0 < c1.size)
    (hpos2 : 0 < c2.size) :
    ∃ piece e', Returns (fun fuel => e.next fuel) (piece, e') ∧ 0<piece.bytes ∧
      piece.pairs = (c1.layout.window p piece.bytes).zip (c2.layout.window p piece.bytes) ∧
      e'.Pairs c1 c2 (p+piece.bytes) := by
  obtain ⟨i,hi,hipos,-⟩ := h.input.current
  obtain ⟨o,ho,hopos,-⟩ := h.output.current
  obtain ⟨hc1,s1,⟨m1,hm1⟩,hs1⟩ := h.input.take hpos1 hi (min_le_left i.bytes o.bytes)
  obtain ⟨hc2,s2,⟨m2,hm2⟩,hs2⟩ := h.output.take hpos2 ho (min_le_right i.bytes o.bytes)
  refine ⟨⟨i.disp,o.disp,min i.bytes o.bytes⟩,⟨s1,s2⟩,⟨max m1 m2,fun fuel hf => ?_⟩,
    lt_min hipos hopos,?_,hs1,hs2⟩
  · have hr1 : e.input.take fuel (min i.bytes o.bytes) = some s1 := hm1 fuel (le_trans (le_max_left _ _) hf)
    have hr2 : e.output.take fuel (min i.bytes o.bytes) = some s2 := hm2 fuel (le_trans (le_max_right _ _) hf)
    simp only [TypeEnumerator.next,hi,ho,bind_some,hr1,hr2,map_some]
  · rw [Piece.pairs,hc1,hc2]

theorem zip_window_add (x y : Layout Word Word) (p m n : ℕ) :
    (x.window p (m+n)).zip (y.window p (m+n)) =
      (x.window p m).zip (y.window p m) ++ (x.window (p+m) n).zip (y.window (p+m) n) := by
  rw [Layout.window_add,Layout.window_add,zip_append]
  rw [Layout.window_length,Layout.window_length]

theorem Pairs.nexts (hpos1 : 0 < c1.size) (hpos2 : 0 < c2.size) (n : ℕ) {e : TypeEnumerator}
    (h : e.Pairs c1 c2 p) :
    ∃ pieces e', Returns (fun fuel => nexts fuel n e) (pieces, e') ∧ pieces.length=n ∧ (∀ x ∈ pieces, 0<x.bytes) ∧
      pieces.flatMap Piece.pairs = (c1.layout.window p (pieces.map Piece.bytes).sum).zip
        (c2.layout.window p (pieces.map Piece.bytes).sum) := by
  induction n generalizing e p with
  | zero => exact ⟨[],e,⟨0,fun fuel _ => rfl⟩,rfl,by simp,by simp⟩
  | succ n ih =>
    obtain ⟨piece,e1,⟨m,hm⟩,hpos,hpai,h1⟩ := h.next hpos1 hpos2
    obtain ⟨pieces,e2,⟨m',hm'⟩,hlen,hpos',hpai'⟩ := ih h1
    refine ⟨piece :: pieces,e2,⟨max m m',fun fuel hf => ?_⟩,?_,?_,?_⟩
    · have hr : e.next fuel = some (piece, e1) := hm fuel (le_trans (le_max_left _ _) hf)
      have hr' : TypeEnumerator.nexts fuel n e1 = some (pieces, e2) := hm' fuel (le_trans (le_max_right _ _) hf)
      simp only [TypeEnumerator.nexts,hr,bind_some,hr',map_some]
    · rw [length_cons,hlen]
    · intro x hx
      rcases mem_cons.mp hx with rfl | hx
      · exact hpos
      · exact hpos' x hx
    · rw [flatMap_cons,map_cons,sum_cons,zip_window_add,hpai,hpai']

theorem new_pairs {t1 t2 contigMax : TypeCode} {s : Word} (h1 : Represents t1 c1)
    (h2 : Represents t2 c2) (hpos1 : 0 < c1.size) (hpos2 : 0 < c2.size)
    (hmax : Represents contigMax (contigCode s)) (hs : s≠0) :
    ∃ e, Returns (fun fuel => new fuel contigMax t1 t2) e ∧ e.Pairs (machineCode c1 s) (machineCode c2 s) 0 := by
  have hb (t : TypeCode) : AtBoundary (TypeMachine.new contigMax t) := by
    intro cur hcur
    obtain rfl := some.inj hcur
    rfl
  obtain ⟨s1,⟨m1,hm1⟩,hs1⟩ := Side.fill_spec (on_new h1 hmax False.elim)
    (machineCode_size_pos hpos1 hs) (hb t1)
  obtain ⟨s2,⟨m2,hm2⟩,hs2⟩ := Side.fill_spec (on_new h2 hmax False.elim)
    (machineCode_size_pos hpos2 hs) (hb t2)
  refine ⟨⟨s1,s2⟩,⟨max m1 m2,fun fuel hf => ?_⟩,hs1,hs2⟩
  have hr1 : Side.fill fuel (TypeMachine.new contigMax t1) = some s1 := hm1 fuel (le_trans (le_max_left _ _) hf)
  have hr2 : Side.fill fuel (TypeMachine.new contigMax t2) = some s2 := hm2 fuel (le_trans (le_max_right _ _) hf)
  simp only [TypeEnumerator.new,hr1,hr2,bind_some,map_some]

/-- The pieces that any number of calls of `next` return are not empty and pair cell after cell
of the first type with cell after cell of the second one. -/
theorem enumerator_pairs {fresh : ℕ → Memory} {heap : Word → TypeCode}
    {t1 t2 contigMax : TypeCode} (h1 : Represents t1 c1) (h2 : Represents t2 c2)
    (hpos1 : 0 < c1.size) (hpos2 : 0 < c2.size)
    (hmax : TypeCode.contig fresh heap 1 = some contigMax) (n : ℕ) :
    ∃ pieces e, Returns (fun fuel => (new fuel contigMax t1 t2).bind (nexts fuel n)) (pieces, e) ∧
      pieces.length = n ∧ (∀ x ∈ pieces, 0 < x.bytes) ∧
      pieces.flatMap Piece.pairs = (c1.layout.window 0 (pieces.map Piece.bytes).sum).zip
        (c2.layout.window 0 (pieces.map Piece.bytes).sum) := by
  have hs := maxSize_ne
  obtain ⟨e,⟨m,hm⟩,hpai⟩ := new_pairs h1 h2 hpos1 hpos2 (max_represents hmax) hs
  obtain ⟨pieces,e',⟨m',hm'⟩,hlen,hbyt,hcel⟩ := hpai.nexts
    (machineCode_size_pos hpos1 hs) (machineCode_size_pos hpos2 hs) n
  refine ⟨pieces,e',⟨max m m',fun fuel hf => ?_⟩,hlen,hbyt,?_⟩
  · have hr : new fuel contigMax t1 t2 = some e := hm fuel (le_trans (le_max_left _ _) hf)
    have hr' : nexts fuel n e = some (pieces, e') := hm' fuel (le_trans (le_max_right _ _) hf)
    simp only [hr,bind_some,hr']
  · rw [hcel,machineCode_window h1.wf hs,machineCode_window h2.wf hs]

theorem enumerator_pairs_twoBlocks : ∃ c, Represents twoBlocksType c ∧ c.size = 8 ∧
    ∃ pieces e, Returns (fun fuel =>
        (new fuel contigMaxType twoBlocksType twoBlocksType).bind (nexts fuel 300)) (pieces, e) ∧
      pieces.length = 300 ∧ (∀ x ∈ pieces, 0 < x.bytes) ∧
      pieces.flatMap Piece.pairs = (c.layout.window 0 (pieces.map Piece.bytes).sum).zip
        (c.layout.window 0 (pieces.map Piece.bytes).sum) := by
  obtain ⟨c,hrep,hlay⟩ := twoBlocksType_compiled.represents
  have hsi : c.size=8 := by
    rw [Code.size,hlay]
    decide
  have hpos : 0 < c.size := by omega
  exact ⟨c,hrep,hsi,enumerator_pairs hrep hrep hpos hpos contigMaxType_eq 300⟩

end Pairing

end TypeEnumerator

end PAMI.Datatype
