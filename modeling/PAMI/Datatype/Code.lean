import PAMI.Datatype.TypeCode
import PAMI.Math.Layout

namespace PAMI.Datatype

open PAMI.Math.Layout Option

open PAMI.Math (Layout)

/-- The code of a completed type as a tree: the instructions up to `END`, the code of the
sub-type standing in place of the offset of a `CALL`. -/
inductive Code where
  | done
  | copy (c : Copy) (next : Code)
  | shift (s : Word) (next : Code)
  | call (sub : Code) (stride reps : Word) (next : Code)
  deriving DecidableEq, Inhabited

namespace Code

/-- The blocks one pass from `BEGIN` to `END` visits, following the calls. -/
@[grind =] def blocks : Code → Layout (Layout.Extent Word) Word
  | done => 1
  | copy c k => Layout.run c.bytes.toNat c.stride ^ c.reps.toNat * k.blocks
  | shift s k => Layout.shift s * k.blocks
  | call sub stride reps k => sub.blocks.withAdvance stride ^ reps.toNat * k.blocks

def layout (c : Code) : Layout Word Word := c.blocks.cells

@[simp] theorem layout_done : done.layout=1 := rfl

@[simp] theorem layout_copy (c : Copy) (k : Code) :
    (copy c k).layout = block c.bytes.toNat c.stride^c.reps.toNat*k.layout := by
  simp [layout,blocks]

@[simp] theorem layout_shift (s : Word) (k : Code) :
    (shift s k).layout = Layout.shift s*k.layout := by
  simp [layout,blocks]

@[simp] theorem layout_call (sub : Code) (stride reps : Word) (k : Code) :
    (call sub stride reps k).layout = sub.layout.withAdvance stride^reps.toNat*k.layout := by
  simp [layout,blocks]

def size (c : Code) : ℕ := c.layout.items.length

@[simp] theorem size_done : done.size=0 := rfl

@[simp] theorem size_copy (c : Copy) (k : Code) :
    (copy c k).size=c.reps.toNat*c.bytes.toNat+k.size := by
  simp only [size,layout_copy,mul_items_length,pow_items_length,block_items_length]

@[simp] theorem size_shift (s : Word) (k : Code) : (shift s k).size=k.size := by
  simp [size]

@[simp] theorem size_call (sub : Code) (stride reps : Word) (k : Code) :
    (call sub stride reps k).size=reps.toNat*sub.size+k.size := by
  simp only [size,layout_call,mul_items_length,pow_items_length,withAdvance_items]

def numBlocks (c : Code) : ℕ := c.blocks.items.length

@[simp] theorem numBlocks_copy (c : Copy) (k : Code) :
    (copy c k).numBlocks=c.reps.toNat+k.numBlocks := by
  simp only [numBlocks,blocks,mul_items_length,pow_items_length,run_items_length,mul_one]

@[simp] theorem numBlocks_shift (s : Word) (k : Code) :
    (shift s k).numBlocks=k.numBlocks := by
  simp [numBlocks,blocks]

@[simp] theorem numBlocks_call (sub : Code) (stride reps : Word) (k : Code) :
    (call sub stride reps k).numBlocks=reps.toNat*sub.numBlocks+k.numBlocks := by
  simp only [numBlocks,blocks,mul_items_length,pow_items_length,withAdvance_items]

/-- One more than the deepest nesting of calls. -/
@[grind =] def depth : Code → ℕ
  | done => 1
  | copy _ k => k.depth
  | shift _ k => k.depth
  | call sub _ _ k => max (sub.depth + 1) k.depth

/-- The lengths of all blocks reachable, through calls too. -/
def blockLengths : Code → List ℕ
  | done => []
  | copy c k => c.bytes.toNat :: k.blockLengths
  | shift _ k => k.blockLengths
  | call sub _ _ k => sub.blockLengths ++ k.blockLengths

def unit (c : Code) : ℕ := c.blockLengths.foldr Nat.gcd 0

/-- What the rewrites keep true of every instruction: none is void, and a copy that repeats does
not repeat contiguously. -/
def WF : Code → Prop
  | done => True
  | copy c k => c.bytes ≠ 0 ∧ c.reps ≠ 0 ∧ (c.bytes = c.stride → c.reps = 1) ∧ k.WF
  | shift _ k => k.WF
  | call sub _ reps k => reps ≠ 0 ∧ sub.WF ∧ k.WF

@[grind =] def isSimple : Code → Bool
  | copy _ done => true
  | _ => false

/-- The code is exactly one copy of one block, which ends where the layout does. -/
@[grind =] def isContiguous : Code → Bool
  | copy c done => c.bytes = c.stride ∧ c.reps = 1
  | _ => false

end Code

/-- The header of a completed type at an offset of its memory says what the code does. The two
byte counts and the number of blocks are kept modulo the size of a word. -/
structure HeaderAt (m : Memory) (off : ℕ) (c : Code) : Prop where
  opcode : opcodeOf (m off) = Opcode.BEGIN.code
  contiguous : (Flags.unpack (m (off + 8))).contiguous = c.isContiguous
  simple : (Flags.unpack (m (off + 8))).simple = c.isSimple
  depth : c.depth < 2^32 → (Flags.unpack (m (off + 8))).depth.toNat = c.depth
  dataSize : m (off + 24) = BitVec.ofNat 64 c.size
  extent : m (off + 32) = c.layout.advance
  numBlocks : m (off + 40) = BitVec.ofNat 64 c.numBlocks
  unit : (m (off + 48)).toNat = c.unit

/-- The memory below `lim` holds the code from `pc` on, the code of every sub-type lying behind
its own header at the offset its call gives. -/
def CodeAt (m : Memory) (lim : ℕ) : ℕ → Code → Prop
  | pc, .done => opcodeOf (m pc) = Opcode.END.code ∧ pc + 8 ≤ lim
  | pc, .copy c k => opcodeOf (m pc) = Opcode.COPY.code ∧
      (m (pc + 8) = c.bytes ∧ m (pc + 16) = c.stride ∧ m (pc + 24) = c.reps) ∧
      pc + 32 ≤ lim ∧ CodeAt m lim (pc + 32) k
  | pc, .shift s k => opcodeOf (m pc) = Opcode.SHIFT.code ∧ m (pc + 8) = s ∧ pc + 16 ≤ lim ∧
      CodeAt m lim (pc + 16) k
  | pc, .call sub stride reps k => opcodeOf (m pc) = Opcode.CALL.code ∧
      (m (pc + 16) = stride ∧ m (pc + 24) = reps) ∧ pc + 32 ≤ lim ∧
      (HeaderAt m (pc + (m (pc + 8)).toNat) sub ∧ pc + (m (pc + 8)).toNat + 64 ≤ lim ∧
        CodeAt m lim (pc + (m (pc + 8)).toNat + 64) sub) ∧ CodeAt m lim (pc + 32) k

/-- A completed type code is the compiled form of the code tree. -/
structure Represents (t : TypeCode) (c : Code) : Prop where
  completed : t.completed = true
  header : HeaderAt t.code 0 c
  code : CodeAt t.code t.getCodeSize.toNat 64 c
  wf : c.WF

namespace Code

theorem foldr_gcd_append (l l' : List ℕ) :
    (l ++ l').foldr Nat.gcd 0 = Nat.gcd (l.foldr Nat.gcd 0) (l'.foldr Nat.gcd 0) := by
  induction l with
  | nil => simp
  | cons n l ih => rw [List.cons_append,List.foldr_cons,ih,List.foldr_cons,Nat.gcd_assoc]

end Code

variable {c : Code}

theorem HeaderAt.congr {m m' : Memory} {off off' : ℕ} (h : HeaderAt m off c)
    (hm : ∀ j, j<64 → m' (off'+j) = m (off+j)) : HeaderAt m' off' c := by
  constructor
  · rw [show m' off' = m off from hm 0 (by decide)]; exact h.opcode
  · rw [hm 8 (by decide)]; exact h.contiguous
  · rw [hm 8 (by decide)]; exact h.simple
  · rw [hm 8 (by decide)]; exact h.depth
  · rw [hm 24 (by decide)]; exact h.dataSize
  · rw [hm 32 (by decide)]; exact h.extent
  · rw [hm 40 (by decide)]; exact h.numBlocks
  · rw [hm 48 (by decide)]; exact h.unit

theorem CodeAt.lt_lim {m : Memory} {lim pc : ℕ} (h : CodeAt m lim pc c) : pc+8≤lim := by
  cases c with
  | done => exact h.2
  | copy c k => have := h.2.2.1; omega
  | shift s k => have := h.2.2.1; omega
  | call sub stride reps k => have := h.2.2.1; omega

theorem CodeAt.relocate {m m' : Memory} {lo lim lim' base : ℕ} (hlim : base+lim≤lim')
    (hm : ∀ i, lo ≤ i → i<lim → m' (base+i) = m i) {pc : ℕ} (hlo : lo≤pc) (h : CodeAt m lim pc c) :
    CodeAt m' lim' (base+pc) c := by
  induction c generalizing pc with
  | done =>
    obtain ⟨hop,hl⟩ := h
    exact ⟨by rw [hm pc hlo (by omega)]; exact hop,by omega⟩
  | copy c k ih =>
    obtain ⟨hop,⟨hb,hs,hr⟩,hl,hk⟩ := h
    refine ⟨by rw [hm pc hlo (by omega)]; exact hop,⟨?_,?_,?_⟩,by omega,?_⟩
    · rw [add_assoc,hm _ (by omega) (by omega)]; exact hb
    · rw [add_assoc,hm _ (by omega) (by omega)]; exact hs
    · rw [add_assoc,hm _ (by omega) (by omega)]; exact hr
    · rw [add_assoc]; exact ih (by omega) hk
  | shift s k ih =>
    obtain ⟨hop,hs,hl,hk⟩ := h
    refine ⟨by rw [hm pc hlo (by omega)]; exact hop,?_,by omega,?_⟩
    · rw [add_assoc,hm _ (by omega) (by omega)]; exact hs
    · rw [add_assoc]; exact ih (by omega) hk
  | call sub stride reps k ihs ih =>
    obtain ⟨hop,⟨hs,hr⟩,hl,⟨hh,hlh,hsub⟩,hk⟩ := h
    have hoff : m' (base+pc+8) = m (pc+8) := by rw [add_assoc,hm _ (by omega) (by omega)]
    have hat (j : ℕ) (hj : j<64) : m' (base+pc+(m (pc+8)).toNat+j) = m (pc+(m (pc+8)).toNat+j) := by
      rw [add_assoc base,add_assoc base,hm _ (by omega) (by omega)]
    refine ⟨by rw [hm pc hlo (by omega)]; exact hop,⟨?_,?_⟩,by omega,?_,?_⟩
    · rw [add_assoc,hm _ (by omega) (by omega)]; exact hs
    · rw [add_assoc,hm _ (by omega) (by omega)]; exact hr
    · rw [hoff]
      refine ⟨hh.congr hat,by omega,?_⟩
      rw [show base+pc+(m (pc+8)).toNat+64=base+(pc+(m (pc+8)).toNat+64) by omega]
      exact ihs (by omega) hsub
    · rw [add_assoc]; exact ih (by omega) hk

theorem CodeAt.congr {m m' : Memory} {lim pc : ℕ} (h : CodeAt m lim pc c) (hm : ∀ i, pc ≤ i → m' i = m i) :
    CodeAt m' lim pc c := by
  have h0 : CodeAt m' lim (0+pc) c :=
    h.relocate (by omega) (fun i hl _ => by rw [zero_add]; exact hm i hl) (le_refl pc)
  rwa [zero_add] at h0

/-- One pass over compiled code from `pc` to `END`, following the calls. -/
def pass (m : Memory) : ℕ → ℕ → Option (Layout Word Word)
  | 0, _ => none
  | fuel + 1, pc =>
    if opcodeOf (m pc) = Opcode.COPY.code then
      (pass m fuel (pc + 32)).map fun rest =>
        every (m (pc + 24)).toNat (m (pc + 16)) (block (m (pc + 8)).toNat 0) * rest
    else if opcodeOf (m pc) = Opcode.CALL.code then
      (pass m fuel (pc + (m (pc + 8)).toNat + 64)).bind fun sub => (pass m fuel (pc + 32)).map fun rest =>
          every (m (pc + 24)).toNat (m (pc + 16)) sub * rest
    else if opcodeOf (m pc) = Opcode.SHIFT.code then
      (pass m fuel (pc + 16)).map fun rest => shift (m (pc + 8)) * rest
    else if opcodeOf (m pc) = Opcode.END.code then some 1
    else none

section

variable {m : Memory} {fuel pc : ℕ} {x : Layout Word Word} (h : pass m fuel pc = some x)
include h

theorem pass_mono : pass m (fuel+1) pc = some x := by
  induction fuel generalizing pc x with
  | zero => simp [pass] at h
  | succ fuel ih =>
    rw [pass] at h ⊢
    split_ifs at h ⊢
    · obtain ⟨rest,hr,rfl⟩ := map_eq_some_iff.mp h
      rw [ih hr,map_some]
    · obtain ⟨sub,hs,hrs⟩ := bind_eq_some_iff.mp h
      obtain ⟨rest,hr,rfl⟩ := map_eq_some_iff.mp hrs
      rw [ih hs,bind_some,ih hr,map_some]
    · obtain ⟨rest,hr,rfl⟩ := map_eq_some_iff.mp h
      rw [ih hr,map_some]
    · exact h

theorem pass_of_le {fuel' : ℕ} (hle : fuel≤fuel') : pass m fuel' pc = some x := by
  induction fuel', hle using Nat.le_induction with
  | base => exact h
  | succ n _ ih => exact pass_mono ih

end

theorem pass_eq_layout {m : Memory} {lim : ℕ} {pc : ℕ} (h : CodeAt m lim pc c) :
    ∃ n, ∀ fuel, n≤fuel → pass m fuel pc = some c.layout := by
  induction c generalizing pc with
  | done =>
    refine ⟨1,fun fuel hf => ?_⟩
    obtain ⟨fuel,rfl⟩ : ∃ f, fuel=f+1 := ⟨fuel-1,by omega⟩
    simp [pass,h.1,Opcode.code]
  | copy c k ih =>
    obtain ⟨hop,⟨hb,hs,hr⟩,-,hk⟩ := h
    obtain ⟨n,hn⟩ := ih hk
    refine ⟨n+1,fun fuel hf => ?_⟩
    obtain ⟨fuel,rfl⟩ : ∃ f, fuel=f+1 := ⟨fuel-1,by omega⟩
    rw [pass,if_pos hop,hn fuel (by omega),hb,hs,hr,map_some,every_eq_pow,block_withAdvance,Code.layout_copy]
  | shift s k ih =>
    obtain ⟨hop,hs,-,hk⟩ := h
    obtain ⟨n,hn⟩ := ih hk
    refine ⟨n+1,fun fuel hf => ?_⟩
    obtain ⟨fuel,rfl⟩ : ∃ f, fuel=f+1 := ⟨fuel-1,by omega⟩
    rw [pass,hop,if_neg (by decide),if_neg (by decide),if_pos rfl,hn fuel (by omega),hs,
      map_some,Code.layout_shift]
  | call sub stride reps k ihs ih =>
    obtain ⟨hop,⟨hs,hr⟩,-,⟨-,-,hsub⟩,hk⟩ := h
    obtain ⟨n,hn⟩ := ih hk
    obtain ⟨n',hn'⟩ := ihs hsub
    refine ⟨max n n'+1,fun fuel hf => ?_⟩
    obtain ⟨fuel,rfl⟩ : ∃ f, fuel=f+1 := ⟨fuel-1,by omega⟩
    rw [pass,hop,if_neg (by decide),if_pos rfl,hn' fuel (by omega),hn fuel (by omega),hs,hr,
      bind_some,map_some,every_eq_pow,Code.layout_call]

end PAMI.Datatype
