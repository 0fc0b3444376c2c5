import PAMI.Datatype.RandomAccess
import PAMI.Math.Runs

namespace PAMI.Datatype

open Option Nat BitVec

open PAMI.Math (Run)

section Nesting

variable (code : Memory) (lim d : ℕ)

/-- The cursors stand in the code of a type, each of those that wait at a call of what the cursor above it runs. -/
inductive Nested : Code → List Cursor → Prop
  | base {k : Code} {cur : Cursor} (h : CodeAt code lim cur.pc k) (hd : k.depth ≤ d) : Nested k [cur]
  | call {k sub next : Code} {stride reps : Word} {cur : Cursor} {stack : List Cursor} (h : CodeAt code lim cur.pc k)
      (hd : k.depth ≤ sub.depth) (hs : Nested (.call sub stride reps next) stack) : Nested k (cur :: stack)

variable {code lim d} {c k k' : Code} {cur cur' : Cursor} {stack stack' : List Cursor} {cp : Copy}

theorem Code.depth_pos (c : Code) : 0 < c.depth := by
  induction c <;> simp_all [Code.depth]

theorem Nested.length (h : Nested code lim d k stack) : k.depth+stack.length≤d+1 := by
  induction h with
  | base h hd => simpa using hd
  | @call k sub next stride reps cur stack h hd hs ih =>
    have hsub : sub.depth+1≤(Code.call sub stride reps next).depth := Nat.le_max_left _ _
    rw [List.length_cons]
    omega

theorem Nested.codeAt (h : Nested code lim d k (cur :: stack)) : CodeAt code lim cur.pc k := by
  cases h <;> assumption

theorem Nested.moved (h : Nested code lim d k (cur :: stack)) (hcd : CodeAt code lim cur'.pc k')
    (hd : k'.depth≤k.depth) : Nested code lim d k' (cur' :: stack) := by
  cases h with
  | base h hk => exact .base hcd (hd.trans hk)
  | call h hk hs => exact .call hcd (hd.trans hk) hs

theorem Nested.execute (hc : CodeAt code lim 64 c) (hd : c.depth≤d) (h : Nested code lim d k stack)
    (hs : execute code stack = some stack') : ∃ k', Nested code lim d k' stack' := by
  cases stack with
  | nil => cases h
  | cons cur rest =>
    have hcd := h.codeAt
    cases k with
    | done =>
      rw [execute_done hcd.1] at hs
      obtain rfl := some.inj hs
      cases h with
      | base => exact ⟨c,.base hc hd⟩
      | @call _ sub next stride reps _ rest _ hk hrs =>
        cases rest with
        | nil => cases hrs
        | cons old rest =>
          rw [executeEnd]
          dsimp only
          split
          case isTrue => exact ⟨next,hrs.moved hrs.codeAt.2.2.2.2 (Nat.le_max_right _ _)⟩
          case isFalse => exact ⟨_,hrs.moved hrs.codeAt le_rfl⟩
    | copy cp k =>
      rw [Datatype.execute,hcd.1] at hs
      cases hs
    | shift s k =>
      rw [Datatype.execute,hcd.1,if_neg (by decide),if_pos rfl] at hs
      obtain rfl := some.inj hs
      exact ⟨k,h.moved hcd.2.2.2 le_rfl⟩
    | call sub stride reps k =>
      rw [Datatype.execute,hcd.1,if_pos rfl] at hs
      obtain rfl := some.inj hs
      exact ⟨sub,.call hcd.2.2.2.1.2.2 le_rfl h⟩

theorem Nested.copied (h : Nested code lim d k (cur :: stack)) (hop : opcodeOf (code cur.pc) = Opcode.COPY.code)
    (hpc : cur'.pc=cur.pc ∨ cur'.pc=cur.pc+32) : ∃ k', Nested code lim d k' (cur' :: stack) := by
  have hcd := h.codeAt
  cases k with
  | copy cp k =>
    cases hpc with
    | inl heq => exact ⟨_,h.moved (heq ▸ hcd) le_rfl⟩
    | inr heq => exact ⟨k,h.moved (heq ▸ hcd.2.2.2) le_rfl⟩
  | done | shift s k | call sub stride reps k => exact absurd (hop.symm.trans hcd.1) (by decide)

theorem copyReps_pc {fuel target bytes : ℕ} {r : List Move × ℕ × ℕ × Cursor}
    (h : copyReps cp fuel target bytes cur = some r) : r.2.2.2.pc=cur.pc := by
  induction fuel generalizing target bytes cur r with
  | zero => cases h
  | succ fuel ih =>
    rw [copyReps] at h
    split at h
    case isTrue =>
      obtain ⟨r',hr',rfl⟩ := map_eq_some_iff.mp h
      have hpc := ih hr'
      exact hpc
    case isFalse =>
      obtain rfl := some.inj h
      rfl

theorem copyLast_pc {target bytes : ℕ} {r : Move × Cursor} (h : copyLast cp target bytes cur = some r) :
    r.2.pc=cur.pc ∨ r.2.pc=cur.pc+32 := by
  rw [copyLast] at h
  split at h
  case isTrue =>
    dsimp only at h
    split at h
    case isTrue =>
      obtain rfl := some.inj h
      dsimp only
      split <;> simp
    case isFalse =>
      obtain rfl := some.inj h
      exact .inl rfl
  case isFalse => cases h

theorem copy_exec_pc {target bytes : ℕ} {r : List Move × Cursor} (h : cp.exec target bytes cur = some r) :
    r.2.pc=cur.pc ∨ r.2.pc=cur.pc+32 := by
  rw [Copy.exec] at h
  split at h
  case isTrue =>
    dsimp only at h
    split at h
    case isTrue =>
      obtain ⟨⟨moves,target',bytes',cur'⟩,hreps,hla⟩ := bind_eq_some_iff.mp h
      have hpc : cur'.pc=cur.pc := copyReps_pc hreps
      dsimp only at hla
      split at hla
      case isTrue =>
        obtain ⟨⟨move,cur''⟩,hmove,rfl⟩ := map_eq_some_iff.mp hla
        exact hpc ▸ copyLast_pc hmove
      case isFalse => cases hla
    case isFalse =>
      obtain ⟨⟨move,cur'⟩,hmove,rfl⟩ := map_eq_some_iff.mp h
      exact copyLast_pc hmove
  case isFalse => cases h

theorem Nested.moveLoop {newOffset : Word} (hc : CodeAt code lim 64 c) (hd : c.depth≤d) (hsi : c.size<2^64)
    {fuel pc : ℕ} {disp offset : Word} (h : Nested code lim d k (⟨pc,disp,offset,0,0⟩ :: stack))
    (hle : offset.toNat≤newOffset.toNat) (hk : k.size<2^64)
    (hin : stack = [] ∨ newOffset.toNat<offset.toNat+k.size ∧ offset.toNat+k.size<2^64)
    (hs : moveLoop code newOffset fuel pc disp offset stack = some stack') : ∃ k', Nested code lim d k' stack' := by
  induction fuel generalizing k pc disp offset stack with
  | zero => cases hs
  | succ fuel ih =>
    have hcd : CodeAt code lim pc k := h.codeAt
    rw [Datatype.moveLoop] at hs
    cases k with
    | done =>
      have hsta : stack = [] := hin.resolve_right fun hin => by
        rw [Code.size_done] at hin
        omega
      rw [hcd.1,if_neg (by decide),if_neg (by decide),if_neg (by decide),if_pos rfl] at hs
      subst hsta
      exact ih (.base hc hd) hle hsi (.inl rfl) hs
    | shift s k =>
      rw [hcd.1,if_neg (by decide),if_neg (by decide),if_pos rfl] at hs
      rw [Code.size_shift] at hk hin
      exact ih (h.moved hcd.2.2.2 le_rfl) hle hk hin hs
    | copy cp k =>
      have hcopy : copyAt code pc=cp := by rw [copyAt,hcd.2.1.1,hcd.2.1.2.1,hcd.2.1.2.2]
      rw [hcd.1,if_pos rfl,hcopy] at hs
      rw [Code.size_copy] at hk hin
      dsimp only at hs
      split at hs
      case isTrue =>
        split at hs
        case isTrue => cases hs
        case isFalse =>
          obtain rfl := some.inj hs
          exact ⟨_,h.moved hcd le_rfl⟩
      case isFalse hout =>
        rw [lt_def,not_lt] at hout
        refine ih (h.moved hcd.2.2.2 le_rfl) hout (by omega) (hin.imp_right fun hin => ?_) hs
        rw [toNat_add_mul rfl (by omega)]
        omega
    | call sub stride reps k =>
      obtain ⟨hop,⟨hst,hr⟩,-,⟨hhea,-,hsub⟩,hnx⟩ := hcd
      have hda : code (pc+(code (pc+8)).toNat+24) = BitVec.ofNat 64 sub.size := hhea.dataSize
      rw [hop,if_neg (by decide),if_pos rfl] at hs
      rw [Code.size_call] at hk hin
      dsimp only at hs
      rw [hda,hst,hr] at hs
      obtain ⟨bytes,hbyt⟩ : ∃ b, b=BitVec.ofNat 64 sub.size := ⟨_,rfl⟩
      have hbn : 0 < reps.toNat → bytes.toNat=sub.size := fun hpos => by
        have hle := Nat.le_mul_of_pos_left sub.size hpos
        rw [hbyt,toNat_ofNat,mod_eq_of_lt (by omega)]
      have hprod : reps.toNat*bytes.toNat=reps.toNat*sub.size := by
        rcases Nat.eq_zero_or_pos reps.toNat with h0 | hpos
        · rw [h0,Nat.zero_mul,Nat.zero_mul]
        · rw [hbn hpos]
      have hmul : (bytes*reps).toNat=reps.toNat*sub.size := by
        rw [toNat_mul_of_lt (by rw [Nat.mul_comm,hprod]; omega),Nat.mul_comm,hprod]
      rw [← hbyt] at hs
      split at hs
      case isTrue hcase =>
        rw [lt_def,toNat_add,hmul] at hcase
        -- the end of the call does not wrap, since the offset lies before it
        have hmax : offset.toNat+reps.toNat*sub.size<2^64 := by omega
        rw [mod_eq_of_lt hmax] at hcase
        split at hs
        case isTrue => cases hs
        case isFalse hne =>
          have hbpos : 0<bytes.toNat := toNat_pos hne
          have hrpos : 0 < reps.toNat := Nat.pos_of_ne_zero fun h0 => by
            rw [h0,Nat.zero_mul] at hcase
            omega
          obtain ⟨r,b,hr',hb',hrb,hblt,hrlt⟩ := repetition_spec reps hbpos hle (by rwa [hprod])
          rw [hr',hb'] at hs
          have hoff : (newOffset-b).toNat=newOffset.toNat-b.toNat := toNat_sub_of_le (by rw [le_def]; omega)
          have hla : (r.toNat+1)*bytes.toNat ≤ reps.toNat*sub.size := hprod ▸ Nat.mul_le_mul_right _ hrlt
          rw [Nat.add_mul,Nat.one_mul] at hla
          rw [hbn hrpos] at hblt hla hrb
          refine ih (.call hsub le_rfl (h.moved ?_ le_rfl)) (by omega) (by omega) (.inr ⟨by omega,by omega⟩) hs
          exact h.codeAt
      case isFalse hout =>
        rw [lt_def,not_lt] at hout
        refine ih (h.moved hnx (Nat.le_max_right _ _)) hout (by omega) (hin.imp_right fun hin => ?_) hs
        rw [toNat_add,hmul,mod_eq_of_lt (by omega)]
        omega

end Nesting

/-- A machine with the type it was given last, and the number of cursors there is room for. -/
structure StackMachine where
  type : TypeCode
  capacity : ℕ
  stack : List Cursor

inductive MachineEvent where
  | setType (type : TypeCode)
  | execute
  | copy (target bytes : ℕ)
  | blocks (n : ℕ)
  | moveCursor (fuel : ℕ) (newOffset : Word)

/-- The cursor behind `n` repetitions of a copy. -/
def Copy.advance (c : Copy) (n : ℕ) (cursor : Cursor) : Cursor :=
  let cursor' := { cursor with
    disp := cursor.disp + n • c.stride
    offset := cursor.offset + c.bytes * BitVec.ofNat 64 n
    repNum := cursor.repNum + BitVec.ofNat 64 n }
  if cursor'.repNum = c.reps then { cursor' with pc := cursor'.pc + 32, repNum := 0 } else cursor'

namespace StackMachine

def smallStackDepth : ℕ := 4

variable (contigMax : TypeCode)

/-- A contiguous type is run as the maximal contiguous type. -/
def running (type : TypeCode) : TypeCode := if type.isContiguous then contigMax else type

/-- The constructors, with room for so many cursors in the stack that they are given, or in `small_stack`. -/
def new (given : ℕ) (type : TypeCode) : StackMachine :=
  let depth := (running contigMax type).getDepth.toNat
  ⟨type, if depth ≤ given then given else depth, [⟨64, 0, 0, 0, 0⟩]⟩

def setType (m : StackMachine) (newType : TypeCode) : StackMachine :=
  let newDepth := (running contigMax newType).getDepth.toNat
  ⟨newType, if m.type.getDepth.toNat < newDepth ∧ smallStackDepth < newDepth then newDepth else m.capacity, [⟨64, 0, 0, 0, 0⟩]⟩

/-- `SetType`, `MoveCursor`, and one turn of the loops of `Pack`, `Unpack`, `GetContigBytes` and `EnumerateBlocks`. -/
def step (m : StackMachine) : MachineEvent → Option StackMachine
  | .setType type => some (m.setType contigMax type)
  | .execute => (execute (running contigMax m.type).code m.stack).map fun stack => { m with stack }
  | .copy target bytes =>
    match m.stack with
    | [] => none
    | cursor :: rest =>
      if opcodeOf ((running contigMax m.type).code cursor.pc) = Opcode.COPY.code then
        ((copyAt (running contigMax m.type).code cursor.pc).exec target bytes cursor).map fun r => { m with stack := r.2 :: rest }
      else none
  | .blocks n =>
    match m.stack with
    | [] => none
    | cursor :: rest =>
      if opcodeOf ((running contigMax m.type).code cursor.pc) = Opcode.COPY.code then
        some { m with stack := (copyAt (running contigMax m.type).code cursor.pc).advance n cursor :: rest }
      else none
  | .moveCursor fuel newOffset =>
    ((⟨running contigMax m.type, m.stack⟩ : TypeMachine).moveCursor fuel newOffset).map fun tm => { m with stack := tm.stack }

/-- A completed type whose depth and data size fit their fields. -/
def Sized (type : TypeCode) : Prop := ∃ c, Represents type c ∧ c.depth < 2 ^ 32 ∧ c.size < 2 ^ 64

def Allowed : MachineEvent → Prop
  | .setType type => Sized type
  | _ => True

/-- A type that `small_stack` would be large enough for is not deeper than the stack in use. -/
def Kept (m : StackMachine) : MachineEvent → Prop
  | .setType type => type.getDepth.toNat ≤ smallStackDepth → type.getDepth.toNat ≤ m.capacity
  | _ => True

/-- There is room for the depth of the current type, and for the cursors up to the top one. -/
structure DeepEnough (m : StackMachine) : Prop where
  depth : (running contigMax m.type).getDepth.toNat ≤ m.capacity
  top : m.stack.length ≤ m.capacity

/-- The cursors are nested in the code; where `w` holds, there is room for those of `small_stack`. -/
structure Inv (w : Prop) (m : StackMachine) (c : Code) : Prop where
  represents : Represents (running contigMax m.type) c
  size : c.size < 2 ^ 64
  depth : c.depth = m.type.getDepth.toNat
  header : (running contigMax m.type).getDepth.toNat = c.depth
  nested : ∃ k, Nested (running contigMax m.type).code (running contigMax m.type).getCodeSize.toNat c.depth k m.stack
  room : c.depth ≤ m.capacity
  small : w → smallStackDepth ≤ m.capacity

variable {contigMax} {m m' : StackMachine} {c : Code} {type : TypeCode} {w : Prop} {fresh : ℕ → Memory}
  {heap : Word → TypeCode} {rest : List Cursor} {moves : List Move}

section

variable (hmax : TypeCode.contig fresh heap 1 = some contigMax)
include hmax

theorem running_spec (h : Sized type) :
    ∃ c, Represents (running contigMax type) c ∧ c.size<2^64 ∧ c.depth=type.getDepth.toNat ∧
      (running contigMax type).getDepth.toNat=c.depth := by
  obtain ⟨c,hrep,hdpt,hsi⟩ := h
  have hc : type.getDepth.toNat=c.depth := hrep.header.depth hdpt
  have hflag : type.isContiguous=c.isContiguous := hrep.header.contiguous
  rw [running,hflag]
  split
  case isTrue hcon =>
    have hmxr := max_represents hmax
    obtain ⟨cp,rfl,-⟩ := (Code.isContiguous_iff c).mp hcon
    have hone : (contigCode (TypeCode.contigSize 1)).depth=1 := rfl
    have hsma : (contigCode (TypeCode.contigSize 1)).size<2^64 := by
      have hlt := (TypeCode.contigSize 1).isLt
      simpa [contigCode] using hlt
    exact ⟨_,hmxr,hsma,hone.trans hc.symm,hmxr.header.depth (hone ▸ by decide)⟩
  case isFalse => exact ⟨c,hrep,hsi,hc.symm,hc⟩

omit hmax in
theorem Inv.deepEnough (h : Inv contigMax w m c) : DeepEnough contigMax m := by
  obtain ⟨k,hnes⟩ := h.nested
  have hlng := hnes.length
  have hpos := k.depth_pos
  have hrm := h.room
  exact ⟨h.header ▸ hrm,by omega⟩

theorem inv_start (h : Sized type) {capacity : ℕ} (hrm : type.getDepth.toNat ≤ capacity)
    (hsma : w → smallStackDepth ≤ capacity) :
    ∃ c, Inv contigMax w ⟨type,capacity,[⟨64,0,0,0,0⟩]⟩ c := by
  obtain ⟨c,hrep,hsi,hdpt,hrnn⟩ := running_spec hmax h
  exact ⟨c,hrep,hsi,hdpt,hrnn,⟨c,.base hrep.code le_rfl⟩,hdpt ▸ hrm,hsma⟩

theorem Inv.setType_iff (h : Inv contigMax w m c) (ht : Sized type) :
    type.getDepth.toNat≤(m.setType contigMax type).capacity ↔ Kept m (.setType type) := by
  obtain ⟨c',-,-,hdpt,hrnn⟩ := running_spec hmax ht
  have hrm := h.room
  rw [h.depth] at hrm
  simp only [setType,Kept,hrnn,hdpt]
  split
  case isTrue hnew => exact ⟨fun _ hsma => absurd hnew.2 (Nat.not_lt.mpr hsma),fun _ => le_rfl⟩
  case isFalse hold => omega

omit hmax in
theorem Inv.stack (h : Inv contigMax w m c) {stack : List Cursor}
    (hnes : ∃ k, Nested (StackMachine.running contigMax m.type).code (StackMachine.running contigMax m.type).getCodeSize.toNat c.depth k stack) :
    Inv contigMax w { m with stack := stack } c :=
  ⟨h.represents,h.size,h.depth,h.header,hnes,h.room,h.small⟩

theorem Inv.step (h : Inv contigMax w m c) {e : MachineEvent} (hall : Allowed e) (hkp : Kept m e)
    (hs : step contigMax m e = some m') : ∃ c, Inv contigMax w m' c := by
  obtain ⟨k,hnes⟩ := h.nested
  have hcd := h.represents.code
  cases e with
  | setType type =>
    obtain rfl := some.inj hs
    refine inv_start hmax hall ((h.setType_iff hmax hall).mpr hkp) fun hw => ?_
    have hsma := h.small hw
    split <;> omega
  | execute =>
    obtain ⟨stack,hsta,rfl⟩ := map_eq_some_iff.mp hs
    exact ⟨c,h.stack (hnes.execute hcd le_rfl hsta)⟩
  | copy target bytes =>
    rw [StackMachine.step] at hs
    split at hs
    · cases hs
    · rename_i cursor rest hsta
      obtain ⟨hop,hs⟩ := ite_none_right_eq_some.mp hs
      obtain ⟨r,hr,rfl⟩ := map_eq_some_iff.mp hs
      exact ⟨c,h.stack ((hsta ▸ hnes).copied hop (copy_exec_pc hr))⟩
  | blocks n =>
    rw [StackMachine.step] at hs
    split at hs
    · cases hs
    · rename_i cursor rest hsta
      obtain ⟨hop,rfl⟩ := ite_some_none_eq_some.mp hs
      refine ⟨c,h.stack ((hsta ▸ hnes).copied hop ?_)⟩
      rw [Copy.advance]
      dsimp only
      split
      · exact .inr rfl
      · exact .inl rfl
  | moveCursor fuel newOffset =>
    obtain ⟨tm,htm,rfl⟩ := map_eq_some_iff.mp hs
    rw [TypeMachine.moveCursor] at htm
    split at htm
    · obtain rfl := some.inj htm
      exact ⟨c,h⟩
    · obtain ⟨hne,htm⟩ := ite_none_left_eq_some.mp htm
      obtain ⟨stack,hsta,rfl⟩ := map_eq_some_iff.mp htm
      refine ⟨c,h.stack ?_⟩
      refine Nested.moveLoop hcd le_rfl h.size (.base hcd le_rfl) ?_ h.size (.inl rfl) hsta
      rw [toNat_mul,toNat_udiv]
      exact (mod_le _ _).trans (div_mul_le_self _ _)

end

/-- Whatever types are set and however the machine is used, there is room for every cursor, as long as no type of at most four
levels is deeper than the stack in use; a stack of four cursors is always enough. -/
theorem run_deepEnough (hmax : TypeCode.contig fresh heap 1 = some contigMax) (given : ℕ) (htype : Sized type)
    (hrun : Run (step contigMax) (fun m e => Allowed e ∧ Kept m e) (new contigMax given type) m) :
    DeepEnough contigMax m ∧ (∀ t, Sized t → (DeepEnough contigMax (m.setType contigMax t) ↔ Kept m (.setType t))) ∧
      (smallStackDepth ≤ given → ∀ t, Kept m (.setType t)) := by
  have hnew : type.getDepth.toNat≤(new contigMax given type).capacity ∧
      (smallStackDepth≤given → smallStackDepth≤(new contigMax given type).capacity) := by
    obtain ⟨c,-,-,hdpt,hrnn⟩ := running_spec hmax htype
    simp only [new,hrnn,hdpt]
    split <;> omega
  obtain ⟨c,hinv⟩ : ∃ c, Inv contigMax (smallStackDepth≤given) m c := by
    refine hrun.invariant (P := fun m => ∃ c, Inv contigMax _ m c) (inv_start hmax htype hnew.1 hnew.2) ?_
    intro m e m' h hok hs
    obtain ⟨c,h⟩ := h
    exact h.step hmax hok.1 hok.2 hs
  refine ⟨hinv.deepEnough,fun t ht => ?_,fun hgiv t hsma => hsma.trans (hinv.small hgiv)⟩
  rw [← hinv.setType_iff hmax ht]
  constructor
  · intro h
    obtain ⟨c',-,-,hdpt,hrnn⟩ := running_spec hmax ht
    exact hdpt ▸ hrnn ▸ h.depth
  · intro h
    obtain ⟨c',hc'⟩ := inv_start (w := False) hmax ht h False.elim
    exact hc'.deepEnough

/-- The type of `threePairs`, which calls that of `twoBlocks`. -/
def threePairsType : TypeCode :=
  (TypeCode.compile clearedStorage (fun _ => twoBlocksType) threePairs).getD (TypeCode.init clearedStorage)

theorem twoBlocksType_represents : Represents twoBlocksType (.copy ⟨4,8,2⟩ .done) :=
  ⟨by decide,⟨by decide,by decide,by decide,by decide,by decide,by decide,by decide,by decide⟩,
    ⟨by decide,by decide,by decide,by decide,by decide⟩,by decide,by decide,by decide,trivial⟩

theorem threePairsType_represents : Represents threePairsType (.call (.copy ⟨4,8,2⟩ .done) 100 3 .done) :=
  ⟨by decide,⟨by decide,by decide,by decide,by decide,by decide,by decide,by decide,by decide⟩,
    ⟨by decide,by decide,by decide,
      ⟨⟨by decide,by decide,by decide,by decide,by decide,by decide,by decide,by decide⟩,by decide,by decide,
        by decide,by decide,by decide,by decide⟩,by decide,by decide⟩,
    by decide,⟨by decide,by decide,by decide,trivial⟩,trivial⟩

theorem run_deepEnough_pairs : ∃ m, Run (step contigMaxType) (fun m e => Allowed e ∧ Kept m e)
    (new contigMaxType 4 twoBlocksType) m ∧ m.stack.length = 2 ∧ DeepEnough contigMaxType m := by
  have htwo : Sized twoBlocksType := ⟨_,twoBlocksType_represents,by decide,by decide⟩
  have hthr : Sized threePairsType := ⟨_,threePairsType_represents,by decide,by decide⟩
  have hrun : Run (step contigMaxType) (fun m e => Allowed e ∧ Kept m e) (new contigMaxType 4 twoBlocksType)
    (new contigMaxType 4 twoBlocksType) := .refl
  have hset := hrun.step (e := MachineEvent.setType threePairsType) ⟨hthr,fun _ => by decide⟩ rfl
  have hcall := hset.step (e := MachineEvent.execute) ⟨trivial,trivial⟩ rfl
  exact ⟨_,hcall,rfl,(run_deepEnough contigMaxType_eq 4 htwo hcall).1⟩

/-- With a stack of one cursor for the first type, the second one is not given a new stack. -/
theorem not_deepEnough : ∃ m, Run (step contigMaxType) (fun _ e => Allowed e) (new contigMaxType 1 twoBlocksType) m ∧
    ¬ DeepEnough contigMaxType m := by
  have hthr : Sized threePairsType := ⟨_,threePairsType_represents,by decide,by decide⟩
  have hrun : Run (step contigMaxType) (fun _ e => Allowed e) (new contigMaxType 1 twoBlocksType)
    (new contigMaxType 1 twoBlocksType) := .refl
  have hset := hrun.step (e := MachineEvent.setType threePairsType) hthr rfl
  exact ⟨_,hset,fun h => absurd h.depth (by decide)⟩

end StackMachine

end PAMI.Datatype
