import PAMI.WorkQueue.ContigBytes

namespace PAMI.WorkQueue

open PAMI.Datatype PipeWorkQueue Option
open PAMI.Math (Layout)

/-- The two ends of a work queue. -/
inductive Side where
  | producer
  | consumer
  deriving DecidableEq

namespace PipeWorkQueue

/-- `bytesAvailableToProduce` or `bytesAvailableToConsume`. -/
def bytesAvailable (fuel : ℕ) (q : PipeWorkQueue) : Side → Option (Word × PipeWorkQueue)
  | .producer => q.bytesAvailableToProduce fuel
  | .consumer => q.bytesAvailableToConsume fuel

/-- `bufferToProduce` or `bufferToConsume`. -/
def bufferTo (q : PipeWorkQueue) : Side → Word
  | .producer => q.bufferToProduce
  | .consumer => q.bufferToConsume

/-- `produceBytes` or `consumeBytes`. -/
@[grind =] def advance (fuel : ℕ) (bytes : Word) (q : PipeWorkQueue) : Side → Option PipeWorkQueue
  | .producer => q.produceBytes fuel bytes
  | .consumer => q.consumeBytes fuel bytes

def bytesOf (q : PipeWorkQueue) : Side → Word
  | .producer => q.producedBytes
  | .consumer => q.consumedBytes

def bytesLeft (q : PipeWorkQueue) : Side → Word
  | .producer => q.qsize.setWidth 64 - q.producedBytes
  | .consumer => q.producedBytes - q.consumedBytes

def machineOf (q : PipeWorkQueue) : Side → Option TypeMachine
  | .producer => q.prodTm
  | .consumer => q.consTm

/-- The queue with another machine on one side. -/
def withMachine (q : PipeWorkQueue) (tm : TypeMachine) : Side → PipeWorkQueue
  | .producer => { q with prodTm := some tm }
  | .consumer => { q with consTm := some tm }

/-- The queue after a side has moved on, with its machine from then on. -/
def moved (q : PipeWorkQueue) (n : Word) (tm : Option TypeMachine) : Side → PipeWorkQueue
  | .producer => { q with producedBytes := q.producedBytes + n, prodTm := tm }
  | .consumer => { q with consumedBytes := q.consumedBytes + n, consTm := tm }

/-- A side without a machine is as straight as memory. -/
def IsStraight (q : PipeWorkQueue) (side : Side) : Prop :=
  ∀ tm, q.machineOf side = some tm → Straight (q.bytesLeft side) tm

end PipeWorkQueue

/-- The layout that a datatype, or none, makes of a buffer. -/
def Sees : Option TypeCode → Layout Word Word → Prop
  | none, x => x = Layout.block 1 1
  | some dt, x => ∃ c, Represents dt c ∧ c.layout = x

/-- The size of the data of a buffer in that layout. -/
def packedSize (x : Layout Word Word) (bufsize : Word) : ℕ := bufsize.toNat / x.advance.toNat * x.items.length

/-- A queue, and the displacements of the buffer that each side has touched. -/
structure Client where
  queue : PipeWorkQueue
  touched : Side → List Word

/-- The runs of clients from a queue: they ask what is available, and move on by no more than that,
wherever a condition holds. -/
inductive Client.Run (ok : PipeWorkQueue → Side → Prop) (start : PipeWorkQueue) : Client → Prop
  | start : Run ok start ⟨start, fun _ => []⟩
  | ask {s : Client} {side : Side} {a : Word} {asked : PipeWorkQueue} (h : Run ok start s)
      (ha : Returns (fun fuel => s.queue.bytesAvailable fuel side) (a, asked)) :
      Run ok start ⟨asked, s.touched⟩
  | move {s : Client} {side : Side} {a n : Word} {asked moved : PipeWorkQueue} (h : Run ok start s)
      (hok : ok s.queue side)
      (ha : Returns (fun fuel => s.queue.bytesAvailable fuel side) (a, asked)) (hn : n ≤ a)
      (hm : Returns (fun fuel => s.queue.advance fuel n side) moved) :
      Run ok start ⟨moved, Function.update s.touched side (s.touched side ++
        (⟨s.queue.bufferTo side, n.toNat⟩ : Layout.Extent Word).cells)⟩

/-- A flat queue whose sides see the layouts and are where their counters say. -/
structure IsFlat (x : Side → Layout Word Word) (q : PipeWorkQueue) : Prop where
  consumed : q.consumedBytes.toNat ≤ q.producedBytes.toNat
  produced : q.producedBytes.toNat ≤ q.qsize.toNat
  pmask : q.pmask = 0 ∧ (∀ side, q.machineOf side = none) ∨ q.pmask = BitVec.allOnes 32
  memory : ∀ side, q.machineOf side = none → ∀ o n : ℕ,
    (x side).window o n = (⟨(o : Word), n⟩ : Layout.Extent Word).cells
  machine : ∀ side tm, q.machineOf side = some tm →
    ∃ c, On True tm c (q.bytesOf side).toNat ∧ c.layout = x side

namespace PipeWorkQueue

variable (q : PipeWorkQueue) (n : Word) (tm : TypeMachine) (tm' : Option TypeMachine)
  (side side' : Side)

@[simp] theorem withMachine_bytesOf : (q.withMachine tm side).bytesOf side' = q.bytesOf side' := by
  cases side <;> cases side' <;> rfl

@[simp] theorem withMachine_machineOf : (q.withMachine tm side).machineOf side' =
    if side'=side then some tm else q.machineOf side' := by
  cases side <;> cases side' <;> rfl

@[simp] theorem withMachine_qsize : (q.withMachine tm side).qsize=q.qsize := by
  cases side <;> rfl

@[simp] theorem withMachine_pmask : (q.withMachine tm side).pmask=q.pmask := by
  cases side <;> rfl

@[simp] theorem moved_bytesOf : (q.moved n tm' side).bytesOf side' =
    if side'=side then q.bytesOf side+n else q.bytesOf side' := by
  cases side <;> cases side' <;> rfl

@[simp] theorem moved_machineOf : (q.moved n tm' side).machineOf side' =
    if side'=side then tm' else q.machineOf side' := by
  cases side <;> cases side' <;> rfl

@[simp] theorem moved_qsize : (q.moved n tm' side).qsize=q.qsize := by
  cases side <;> rfl

@[simp] theorem moved_pmask : (q.moved n tm' side).pmask=q.pmask := by
  cases side <;> rfl

theorem advance_eq (fuel : ℕ) : q.advance fuel n side =
    (moveTo fuel (q.bytesOf side+n) (q.machineOf side)).map fun tm => q.moved n tm side := by
  cases side <;> rfl

variable {q tm side}

theorem machine_spec (hmask : q.pmask≠0) (h : q.machineOf side = some tm) :
    (∀ fuel, q.bytesAvailable fuel side = (contiguous fuel (q.bytesLeft side) tm).map
      fun r => (r.1, q.withMachine r.2 side)) ∧ q.bufferTo side = getCursorDisp tm := by
  cases side with
  | producer =>
    have htm : q.prodTm=some tm := h
    simp only [bytesAvailable,bytesAvailableToProduce,bufferTo,bufferToProduce,if_neg hmask,htm]
    exact ⟨fun _ => rfl,trivial⟩
  | consumer =>
    have htm : q.consTm=some tm := h
    simp only [bytesAvailable,bytesAvailableToConsume,bufferTo,bufferToConsume,if_neg hmask,htm]
    exact ⟨fun _ => rfl,trivial⟩

theorem position_toNat (hmask : q.pmask = BitVec.allOnes 32) {w : Word}
    (hw : w.toNat≤q.qsize.toNat) : (q.position w).toNat=w.toNat := by
  have hq := q.qsize.isLt
  have hones : (BitVec.allOnes 32).toNat=2^32-1 := rfl
  rw [position,hmask,BitVec.toNat_setWidth,BitVec.toNat_and,
    BitVec.toNat_setWidth,hones,Nat.mod_eq_of_lt (show 2^32-1<2^64 by decide),
    Nat.and_two_pow_sub_one_eq_mod]
  omega

end PipeWorkQueue

namespace IsFlat

variable {x : Side → Layout Word Word} {q : PipeWorkQueue} (h : IsFlat x q) {side : Side}

include h

theorem bytesLeft_producer : (q.bytesLeft .producer).toNat=q.qsize.toNat-q.producedBytes.toNat := by
  have hq := q.qsize.isLt
  have hp := h.produced
  have hsi : (q.qsize.setWidth 64).toNat=q.qsize.toNat := by
    rw [BitVec.toNat_setWidth]
    omega
  rw [bytesLeft,BitVec.toNat_sub_of_le (BitVec.le_def.mpr (by omega)),hsi]

theorem bytesLeft_consumer :
    (q.bytesLeft .consumer).toNat=q.producedBytes.toNat-q.consumedBytes.toNat :=
  BitVec.toNat_sub_of_le (BitVec.le_def.mpr h.consumed)

theorem roomToProduce_eq (hmask : q.pmask = BitVec.allOnes 32) :
    q.roomToProduce q.producedBytes q.consumedBytes = q.bytesLeft .producer := by
  have hq := q.qsize.isLt
  have hp := h.produced
  have hc := h.consumed
  have hlf := h.bytesLeft_producer
  have hpo := position_toNat hmask hp
  have hco := position_toNat hmask (hc.trans hp)
  have hrm : ((q.qsize-q.position q.producedBytes).setWidth 64).toNat=q.qsize.toNat-q.producedBytes.toNat := by
    rw [BitVec.toNat_setWidth,BitVec.toNat_sub_of_le (BitVec.le_def.mpr (by omega)),hpo]
    omega
  apply BitVec.eq_of_toNat_eq
  rw [hlf,roomToProduce]
  simp only [gt_iff_lt,BitVec.lt_def,hpo,hco]
  split_ifs with hgt hlt heq
  · exact hrm
  · omega
  · exact hrm
  · exact absurd (BitVec.eq_of_toNat_eq (by omega)) heq

theorem dataToConsume_eq (hmask : q.pmask = BitVec.allOnes 32) :
    q.dataToConsume q.producedBytes q.consumedBytes = q.bytesLeft .consumer := by
  have hp := h.produced
  have hc := h.consumed
  have hlf := h.bytesLeft_consumer
  have hpo := position_toNat hmask hp
  have hco := position_toNat hmask (hc.trans hp)
  have hle : ¬ q.producedBytes<q.consumedBytes := by
    rw [BitVec.lt_def]
    omega
  apply BitVec.eq_of_toNat_eq
  rw [hlf,dataToConsume]
  simp only [hle,false_and,if_false,gt_iff_lt,BitVec.lt_def,hpo,hco]
  split_ifs with hgt
  · rw [BitVec.toNat_setWidth,BitVec.toNat_sub_of_le (BitVec.le_def.mpr (by omega)),hpo,hco]
    omega
  · omega
  · rw [show (0 : Word).toNat=0 from rfl]
    omega

theorem memory_spec (hnn : q.machineOf side = none) :
    (∀ fuel, q.bytesAvailable fuel side = some (q.bytesLeft side, q)) ∧ q.bufferTo side = q.bytesOf side := by
  by_cases hz : q.pmask=0
  · cases side <;> simp [bytesAvailable,bytesAvailableToProduce,
      bytesAvailableToConsume,bufferTo,bufferToProduce,
      bufferToConsume,bytesLeft,bytesOf,hz]
  · have hmask : q.pmask=BitVec.allOnes 32 := h.pmask.resolve_left (fun hl => hz hl.1)
    have hpos {w : Word} (hw : w.toNat≤q.qsize.toNat) : (q.position w).setWidth 64=w := by
      apply BitVec.eq_of_toNat_eq
      have hq := q.qsize.isLt
      rw [BitVec.toNat_setWidth,position_toNat hmask hw]
      omega
    cases side with
    | producer =>
      have htm : q.prodTm=none := hnn
      simp only [bytesAvailable,bytesAvailableToProduce,bufferTo,bufferToProduce,if_neg hz,htm,
        h.roomToProduce_eq hmask,hpos h.produced]
      exact ⟨fun _ => trivial,rfl⟩
    | consumer =>
      have htm : q.consTm=none := hnn
      simp only [bytesAvailable,bytesAvailableToConsume,bufferTo,bufferToConsume,if_neg hz,htm,
        h.dataToConsume_eq hmask,hpos (h.consumed.trans h.produced)]
      exact ⟨fun _ => trivial,rfl⟩

theorem pmask_ne_zero {tm : TypeMachine} (hm : q.machineOf side = some tm) : q.pmask≠0 := by
  rcases h.pmask with ⟨-,hnn⟩ | hmask
  · rw [hnn side] at hm
    cases hm
  · rw [hmask]
    decide

theorem withMachine {tm tm' : TypeMachine} (hm : q.machineOf side = some tm) {c : Code}
    (hon : On True tm' c (q.bytesOf side).toNat) (hc : c.layout = x side) :
    IsFlat x (q.withMachine tm' side) := by
  have hmask := h.pmask.resolve_left (fun hl => h.pmask_ne_zero hm hl.1)
  have hpro := q.withMachine_bytesOf tm' side .producer
  have hcns := q.withMachine_bytesOf tm' side .consumer
  refine ⟨?_,?_,.inr (by rw [q.withMachine_pmask,hmask]),?_,?_⟩
  · simp only [bytesOf] at hpro hcns
    rw [hpro,hcns]
    exact h.consumed
  · simp only [bytesOf] at hpro
    rw [hpro,q.withMachine_qsize]
    exact h.produced
  · intro side' hnn
    rw [q.withMachine_machineOf] at hnn
    split_ifs at hnn with he
    exact h.memory side' hnn
  · intro side' tm1 hso
    rw [q.withMachine_machineOf] at hso
    rw [q.withMachine_bytesOf]
    split_ifs at hso with he
    · obtain rfl := some.inj hso
      rw [he]
      exact ⟨c,hon,hc⟩
    · exact h.machine side' tm1 hso

theorem bytesAvailable_spec (hpos : ∀ side, 0<(x side).items.length) (side : Side) :
    ∃ a asked, Returns (fun fuel => q.bytesAvailable fuel side) (a, asked) ∧ IsFlat x asked ∧
      asked.bytesOf=q.bytesOf ∧ asked.qsize=q.qsize ∧ a ≤ q.bytesLeft side ∧
      (a=0 → q.bytesLeft side = 0) ∧
      (Exposes (x side) (q.bytesOf side).toNat (q.bufferTo side) a ∧
        Exposes (x side) (q.bytesOf side).toNat (asked.bufferTo side) a ↔ q.IsStraight side) := by
  cases hm : q.machineOf side with
  | none =>
    obtain ⟨hava,hbuf⟩ := h.memory_spec hm
    have hexp : Exposes (x side) (q.bytesOf side).toNat (q.bufferTo side) (q.bytesLeft side) := by
      rw [Exposes,h.memory side hm,hbuf]
      congr 2
      exact word_ofNat _
    refine ⟨q.bytesLeft side,q,⟨0,fun fuel _ => hava fuel⟩,h,rfl,rfl,BitVec.le_refl _,id,
      ⟨fun _ tm htm => ?_,fun _ => ⟨hexp,hexp⟩⟩⟩
    rw [hm] at htm
    cases htm
  | some tm =>
    obtain ⟨hava,hbuf⟩ := machine_spec (h.pmask_ne_zero hm) hm
    obtain ⟨c,hon,hc⟩ := h.machine side tm hm
    have hsi : 0 < c.size := by
      rw [Code.size,hc]
      exact hpos side
    obtain ⟨a,tm',hret,hon',hle,hzr,hiff⟩ := contiguous_spec hon hsi (q.bytesLeft side)
    have hflat := h.withMachine hm hon' hc
    have hm' : (q.withMachine tm' side).machineOf side = some tm' := by rw [q.withMachine_machineOf,if_pos rfl]
    obtain ⟨-,hbuf'⟩ := machine_spec (hflat.pmask_ne_zero hm') hm'
    refine ⟨a,q.withMachine tm' side,?_,hflat,funext fun side' => q.withMachine_bytesOf ..,
      q.withMachine_qsize ..,hle,hzr,?_⟩
    · simp only [hava]
      exact hret.map _
    · rw [hbuf,hbuf',← hc,hiff,PipeWorkQueue.IsStraight]
      constructor
      · intro hs tm1 htm
        rw [hm] at htm
        rwa [← some.inj htm]
      · intro hs
        exact hs tm hm

theorem bytesOf_add {n : Word} (hn : n ≤ q.bytesLeft side) :
    (q.bytesOf side+n).toNat=(q.bytesOf side).toNat+n.toNat ∧ (q.bytesOf side+n).toNat≤q.qsize.toNat := by
  have hq := q.qsize.isLt
  have hp := h.produced
  have hc := h.consumed
  have hprd := h.bytesLeft_producer
  have hcon := h.bytesLeft_consumer
  rw [BitVec.le_def] at hn
  have hsum : (q.bytesOf side).toNat+n.toNat≤q.qsize.toNat := by
    cases side with
    | producer =>
      show q.producedBytes.toNat+_ ≤ _
      omega
    | consumer =>
      show q.consumedBytes.toNat+_ ≤ _
      omega
  rw [toNat_add_of_lt (by omega)]
  exact ⟨rfl,hsum⟩

theorem moved {n : Word} (hn : n ≤ q.bytesLeft side) {tm : Option TypeMachine}
    (hnn : tm=none → q.machineOf side = none)
    (hon : ∀ tm', tm = some tm' → q.machineOf side ≠ none ∧
      ∃ c, On True tm' c (q.bytesOf side+n).toNat ∧ c.layout = x side) : IsFlat x (q.moved n tm side) := by
  have hadd := h.bytesOf_add hn
  have hlf : n.toNat≤(q.bytesLeft side).toNat := hn
  refine ⟨?_,?_,?_,?_,?_⟩
  · have hp := h.consumed
    have hcon := h.bytesLeft_consumer
    cases side with
    | producer =>
      show q.consumedBytes.toNat≤(q.producedBytes+n).toNat
      have hsum : (q.producedBytes+n).toNat=q.producedBytes.toNat+n.toNat := hadd.1
      omega
    | consumer =>
      show (q.consumedBytes+n).toNat≤q.producedBytes.toNat
      have hsum : (q.consumedBytes+n).toNat=q.consumedBytes.toNat+n.toNat := hadd.1
      omega
  · rw [q.moved_qsize]
    cases side with
    | producer => exact hadd.2
    | consumer => exact h.produced
  · rw [q.moved_pmask]
    rcases h.pmask with ⟨hz,hall⟩ | hmask
    · refine .inl ⟨hz,fun side' => ?_⟩
      rw [q.moved_machineOf]
      split_ifs
      · cases htm : tm with
        | none => rfl
        | some tm' => exact absurd (hall side) (hon tm' htm).1
      · exact hall side'
    · exact .inr hmask
  · intro side' hside
    rw [q.moved_machineOf] at hside
    split_ifs at hside with he
    · rw [he]
      exact h.memory side (hnn hside)
    · exact h.memory side' hside
  · intro side' tm' hside
    rw [q.moved_machineOf] at hside
    rw [q.moved_bytesOf]
    split_ifs at hside ⊢ with he
    · rw [he]
      exact (hon tm' hside).2
    · exact h.machine side' tm' hside

end IsFlat

theorem withinReach_of_lt {c : Code} (hpos : 0 < c.size) (hsi : c.size<2^64) {o : Word}
    (ho : o.toNat<2^32) : WithinReach c o := by
  rw [WithinReach,add_mul,one_mul]
  by_cases hlt : o.toNat < c.size
  · rw [Nat.div_eq_of_lt hlt]
    omega
  · have hle := Nat.div_mul_le_self o.toNat c.size
    omega

theorem moveTo_spec {x : Layout Word Word} (hda : 0<x.items.length ∧ x.items.length<2^64)
    {tm : Option TypeMachine} {p : ℕ} (hp : p<2^64)
    (hon : ∀ t, tm = some t → ∃ c, On True t c p ∧ c.layout=x) {o : Word} (ho : o.toNat<2^32) :
    ∃ tm', Returns (fun fuel => moveTo fuel o tm) tm' ∧ (tm'=none ↔ tm=none) ∧
      ∀ t, tm' = some t → ∃ c, On True t c o.toNat ∧ c.layout=x := by
  cases tm with
  | none => exact ⟨none,⟨0,fun _ _ => rfl⟩,Iff.rfl,fun _ hc => by cases hc⟩
  | some t =>
    obtain ⟨c,hat,rfl⟩ := hon t rfl
    obtain ⟨t',hret,-,hat'⟩ := On.moveCursor hat hp hda.1 (withinReach_of_lt hda.1 hda.2 ho)
    refine ⟨some t',hret.map some,by simp,fun t1 ht => ?_⟩
    obtain rfl := some.inj ht
    exact ⟨c,hat',rfl⟩

theorem IsFlat.advance_spec {x : Side → Layout Word Word} {q : PipeWorkQueue} (h : IsFlat x q)
    (hda : ∀ side, 0<(x side).items.length ∧ (x side).items.length<2^64) {side : Side}
    {n : Word} (hn : n ≤ q.bytesLeft side) :
    ∃ tm, Returns (fun fuel => q.advance fuel n side) (q.moved n tm side) ∧ IsFlat x (q.moved n tm side) := by
  have hadd := h.bytesOf_add hn
  have hq := q.qsize.isLt
  obtain ⟨tm,hret,hnn,hon⟩ := moveTo_spec (hda side) (BitVec.isLt _) (h.machine side)
    (o := q.bytesOf side+n) (by omega)
  refine ⟨tm,?_,h.moved hn hnn.mp fun tm' htm => ⟨?_,hon tm' htm⟩⟩
  · simp only [advance_eq]
    exact hret.map _
  · rw [ne_eq,← hnn,htm]
    simp

end PAMI.WorkQueue
