import Mathlib.Tactic.Ring
import PAMI.Executor.Barrier

namespace PAMI.Executor

open List

/-- The schedule of an allreduce on one rank. The executor relies on a phase with a partner, and
asserts that there is at most one source in a phase after the last reduce phase. -/
structure ReduceCache (ι : Type*) extends ScheduleCache ι where
  lastReduce : Option ℕ
  active : ∃ p, start ≤ p ∧ p ≤ start + nphases - 1 ∧ (srcTopology p ≠ [] ∨ dstTopology p ≠ [])
  bcast : ∀ p, lastReduce.getD (start + nphases - 1) < p → p ≤ start + nphases - 1 → (srcTopology p).length ≤ 1

namespace ReduceCache

variable {ι : Type*} (c : ReduceCache ι)

def getNumSrcRanks (p : ℕ) : ℕ := (c.srcTopology p).length

def getNumDstRanks (p : ℕ) : ℕ := (c.dstTopology p).length

def getEndPhase : ℕ := c.start + c.nphases - 1

/-- The last phase, if the schedule does not say. -/
def getLastReducePhase : ℕ := c.lastReduce.getD (c.start + c.nphases - 1)

end ReduceCache

/-- The buffers `_src1` may point to. In an allreduce `_reducebuf` is the destination buffer. -/
inductive SumBuffer where
  | srcbuf
  | reducebuf
  deriving DecidableEq, Repr

/-- What an executor does: it combines the message at an index, sends a value in a phase, or calls
the done callback. -/
inductive Action (V : Type*) where
  | combine (phase idx : ℕ)
  | send (phase : ℕ) (value : V)
  | done
  deriving DecidableEq, Repr

/-- `AllreduceBaseExec`, with what it has done so far. A pipework queue of a source is full or
empty; those of the phases after the last reduce phase are one queue, over the destination
buffer. -/
structure AllreduceExec (V : Type*) where
  curPhase : ℕ
  curIdx : ℕ
  curnsrc : ℕ
  initialized : Bool
  isSendDone : Bool
  inAdvance : Bool
  src1 : SumBuffer
  srcbuf : V
  dstbuf : V
  recvBufs : ℕ → ℕ → V
  pwqs : ℕ → ℕ → Bool
  bcastpwq : Bool
  log : List (Action V)

namespace AllreduceExec

variable {ι V : Type*}

def Done (e : AllreduceExec V) : Prop := .done ∈ e.log

instance [DecidableEq V] (e : AllreduceExec V) : Decidable e.Done := inferInstanceAs (Decidable (_ ∈ _))

def value (e : AllreduceExec V) : SumBuffer → V
  | .srcbuf => e.srcbuf
  | .reducebuf => e.dstbuf

/-- The index at which the loop over the sources stops: the first one whose message is not there
yet, or the end. -/
@[grind =] def firstLacking (available : ℕ → Bool) : ℕ → ℕ → ℕ
  | 0, i => i
  | n + 1, i => if available i then firstLacking available n (i + 1) else i

section Handlers

variable (c : ReduceCache ι) (reduceFunc : V → V → V) (now : ℕ → Bool)

/-- `reset`: the buffers hold what they held before. -/
def reset (srcbuf dstbuf : V) (recvBufs : ℕ → ℕ → V) : AllreduceExec V where
  curPhase := c.start
  curIdx := 0
  curnsrc := c.getNumSrcRanks c.start
  initialized := false
  isSendDone := false
  inAdvance := false
  src1 := .srcbuf
  srcbuf := srcbuf
  dstbuf := dstbuf
  recvBufs := recvBufs
  pwqs _ _ := false
  bcastpwq := false
  log := []

/-- There is a whole message in the queue of a source. -/
def available (e : AllreduceExec V) (p i : ℕ) : Bool :=
  if p ≤ c.getLastReducePhase then e.pwqs p i else e.bcastpwq

def combineOne (e : AllreduceExec V) (idx : ℕ) : AllreduceExec V :=
  { e with
    dstbuf := reduceFunc (e.value e.src1) (e.recvBufs e.curPhase idx)
    src1 := .reducebuf
    log := e.log ++ [.combine e.curPhase idx] }

/-- The messages of the current phase are combined up to the last reduce phase. -/
def combine (e : AllreduceExec V) : AllreduceExec V :=
  if e.curPhase ≤ c.getLastReducePhase then
    (List.range e.curnsrc).foldl (combineOne reduceFunc) e
  else e

/-- `reset_nosync` of the queues of the current phase. -/
def resetQueues (e : AllreduceExec V) : AllreduceExec V :=
  if e.curPhase ≤ c.getLastReducePhase then
    { e with pwqs := fun p i => if p = e.curPhase ∧ i < e.curnsrc then false else e.pwqs p i }
  else { e with bcastpwq := if 0 < e.curnsrc then false else e.bcastpwq }

/-- `sendMessage`: when the multicast returns, it may have called `notifySendDone` already. -/
def sendMessage (buf : SumBuffer) (e : AllreduceExec V) : AllreduceExec V :=
  { e with isSendDone := now e.curPhase, log := e.log ++ [.send e.curPhase (e.value buf)] }

def complete (e : AllreduceExec V) : AllreduceExec V :=
  { e with isSendDone := false, initialized := false, log := e.log ++ [.done] }

/-- The next phase, with the number of its sources. -/
def nextPhase (e : AllreduceExec V) : AllreduceExec V :=
  { e with curnsrc := c.getNumSrcRanks (e.curPhase + 1), curIdx := 0, curPhase := e.curPhase + 1 }

/-- The loop of `advance_multiple` over the phases that are left. -/
@[grind =] def advanceLoop : ℕ → AllreduceExec V → AllreduceExec V
  | 0, e => { e with inAdvance := false }
  | fuel + 1, e =>
    let idx := firstLacking (available c e e.curPhase) (e.curnsrc - e.curIdx) e.curIdx
    let e := { e with curIdx := idx }
    if idx < e.curnsrc then { e with inAdvance := false }
    else
      let e := resetQueues c (combine c reduceFunc e)
      if e.curPhase = c.getEndPhase then complete e
      else
        let e := nextPhase c e
        if 0 < c.getNumDstRanks e.curPhase then
          let e := sendMessage now .reducebuf e
          if e.isSendDone then advanceLoop fuel e else { e with inAdvance := false }
        else advanceLoop fuel e

/-- `advance_multiple`. -/
def advance (e : AllreduceExec V) : AllreduceExec V :=
  advanceLoop c reduceFunc now (c.getEndPhase + 1 - e.curPhase) { e with inAdvance := true }

/-- The loop of `start` over phases without partners. -/
@[grind =] def skipInactive : ℕ → ℕ → ℕ
  | 0, p => p
  | fuel + 1, p => if c.getNumDstRanks p = 0 ∧ c.getNumSrcRanks p = 0 then skipInactive fuel (p + 1) else p

/-- The phase `start` finds. -/
def firstPhase : ℕ := skipInactive c (c.getEndPhase - c.start) c.start

def notifySendDone (e : AllreduceExec V) : AllreduceExec V :=
  let e := { e with isSendDone := true }
  if e.inAdvance then e else advance c reduceFunc now e

def start (e : AllreduceExec V) : AllreduceExec V :=
  let e := { e with initialized := true, isSendDone := true, curPhase := firstPhase c }
  if 0 < c.getNumDstRanks e.curPhase then
    let e := sendMessage now .srcbuf e
    if e.isSendDone then advance c reduceFunc now e else e
  else advance c reduceFunc now e

/-- A message lands in the queue that `notifyRecv` gave for its phase and the index of its
source. -/
def receive (p i : ℕ) (v : V) (e : AllreduceExec V) : AllreduceExec V :=
  if p ≤ c.getLastReducePhase then
    { e with
      recvBufs := fun q j => if q = p ∧ j = i then v else e.recvBufs q j
      pwqs := fun q j => if q = p ∧ j = i then true else e.pwqs q j }
  else { e with dstbuf := v, bcastpwq := true }

/-- `staticNotifyReceiveDone`. -/
def notifyReceiveDone (e : AllreduceExec V) : AllreduceExec V :=
  if e.isSendDone ∧ ¬ e.inAdvance then advance c reduceFunc now e else e

end Handlers

end AllreduceExec

/-- An executor and what its network still owes it: the messages that have landed, the receives
whose callback has not come yet. -/
structure AllreduceSystem (V : Type*) where
  exec : AllreduceExec V
  started : Bool
  arrived : List (ℕ × ℕ)
  pending : ℕ

/-- What happens to an executor. The function says in which phases a multicast completes before it
returns. -/
inductive AllreduceInput where
  | start (now : ℕ → Bool)
  | receive (phase idx : ℕ)
  | receiveDone (now : ℕ → Bool)
  | sendDone (now : ℕ → Bool)

namespace AllreduceSystem

open AllreduceExec

variable {ι V : Type*} [DecidableEq V] (c : ReduceCache ι) (reduceFunc : V → V → V)
  (msg : ℕ → ℕ → V)

/-- One input; every source sends one message in a phase, and a send completes once. -/
def step (s : AllreduceSystem V) : AllreduceInput → Option (AllreduceSystem V)
  | .start now =>
    if s.started then none
    else some { s with started := true, exec := s.exec.start c reduceFunc now }
  | .receive p i =>
    if c.start ≤ p ∧ p ≤ c.getEndPhase ∧ i < c.getNumSrcRanks p ∧ (p, i) ∉ s.arrived then
      some { s with
        exec := s.exec.receive c p i (msg p i), arrived := (p, i) :: s.arrived
        pending := s.pending + 1 }
    else none
  | .receiveDone now =>
    if s.pending = 0 then none
    else some { s with
      pending := s.pending - 1, exec := s.exec.notifyReceiveDone c reduceFunc now }
  | .sendDone now =>
    if s.started ∧ s.exec.isSendDone = false ∧ ¬ s.exec.Done then
      some { s with exec := s.exec.notifySendDone c reduceFunc now }
    else none

/-- After `reset`. -/
def initial (srcbuf dstbuf : V) (recvBufs : ℕ → ℕ → V) : AllreduceSystem V :=
  ⟨.reset c srcbuf dstbuf recvBufs, false, [], 0⟩

end AllreduceSystem

open PAMI.Math

namespace ReduceCache

variable {ι : Type*} (c : ReduceCache ι)

def phaseMessages (p : ℕ) : List (ℕ × ℕ) :=
  if p ≤ c.getLastReducePhase then (List.range (c.getNumSrcRanks p)).map (Prod.mk p) else []

/-- The messages of the phases before a phase that are combined, in the order of the phases. -/
def messages (q : ℕ) : List (ℕ × ℕ) := (List.range' c.start (q - c.start)).flatMap c.phaseMessages

def Broadcasts (p : ℕ) : Prop := c.getLastReducePhase < p ∧ (c.start ≤ p ∧ p ≤ c.getEndPhase) ∧ 0 < c.getNumSrcRanks p

variable {c}

theorem messages_succ {q : ℕ} (hq : c.start≤q) :
    c.messages (q+1) = c.messages q ++ c.phaseMessages q := by
  obtain ⟨k,rfl⟩ := Nat.exists_eq_add_of_le hq
  have h1 : c.start+k+1-c.start=k+1 := by omega
  rw [messages,messages,h1,Nat.add_sub_cancel_left,range'_concat,flatMap_append]
  simp

theorem messages_eq_nil {q : ℕ} (h : ∀ p, c.start≤p → p<q → c.getNumSrcRanks p = 0) :
    c.messages q = [] := by
  rw [messages,flatMap_eq_nil_iff]
  intro p hp
  rw [mem_range'_1] at hp
  rw [phaseMessages,h p hp.1 (by omega)]
  simp

theorem mem_messages {p i q : ℕ} :
    (p, i) ∈ c.messages q ↔ (c.start≤p ∧ p<q) ∧ p ≤ c.getLastReducePhase ∧ i < c.getNumSrcRanks p := by
  rw [messages,mem_flatMap]
  constructor
  · rintro ⟨p',hp',hmem⟩
    rw [mem_range'_1] at hp'
    rw [phaseMessages] at hmem
    split_ifs at hmem with hla
    · obtain ⟨j,hj,heq⟩ := mem_map.mp hmem
      cases heq
      exact ⟨⟨hp'.1,by omega⟩,hla,mem_range.mp hj⟩
    · cases hmem
  · rintro ⟨hp,hla,hi⟩
    refine ⟨p,mem_range'_1.mpr ⟨hp.1,by omega⟩,?_⟩
    rw [phaseMessages,if_pos hla]
    exact mem_map_of_mem (mem_range.mpr hi)

theorem messages_nodup (q : ℕ) : (c.messages q).Nodup := by
  rw [messages,nodup_flatMap]
  constructor
  · intro p _
    rw [phaseMessages]
    split_ifs
    · apply nodup_range.map
      intro i j h
      exact (Prod.mk.inj h).2
    · exact nodup_nil
  · apply List.Pairwise.imp _ nodup_range'
    intro p p' hne
    rw [Function.onFun_apply,disjoint_left]
    rintro ⟨a,i⟩ h h'
    rw [phaseMessages] at h h'
    split_ifs at h h'
    · simp only [mem_map,Prod.mk.injEq] at h h'
      obtain ⟨-,-,rfl,-⟩ := h
      obtain ⟨-,-,rfl,-⟩ := h'
      exact hne rfl
    · cases h'
    · cases h
    · cases h

end ReduceCache

namespace AllreduceExec

section Loops

variable {ι V : Type*} {c : ReduceCache ι} {reduceFunc : V → V → V}

theorem firstLacking_spec (available : ℕ → Bool) (n i : ℕ) :
    i ≤ firstLacking available n i ∧ firstLacking available n i ≤ i+n ∧
      (∀ j, i≤j → j < firstLacking available n i → available j = true) ∧
      (firstLacking available n i < i+n → available (firstLacking available n i) = false) := by
  induction n generalizing i with
  | zero =>
    refine ⟨le_refl _,le_refl _,?_,?_⟩
    · intro j hij hj
      exact absurd hj (not_lt.mpr hij)
    · intro h
      exact absurd h (lt_irrefl _)
  | succ n ih =>
    rw [firstLacking]
    split_ifs with hav
    · obtain ⟨hle,hbou,hall,hstop⟩ := ih (i+1)
      refine ⟨by omega,by omega,?_,?_⟩
      · intro j hij hj
        rcases eq_or_lt_of_le hij with rfl | hlt
        · exact hav
        · exact hall j hlt hj
      · intro h
        exact hstop (by omega)
    · refine ⟨le_refl _,by omega,?_,?_⟩
      · intro j hij hj
        exact absurd hj (not_lt.mpr hij)
      · intro _
        exact Bool.eq_false_iff.mpr hav

theorem foldl_combineOne (e : AllreduceExec V) (n : ℕ) :
    (List.range n).foldl (combineOne reduceFunc) e =
      { e with
        dstbuf := if n=0 then e.dstbuf else
          ((List.range n).map (e.recvBufs e.curPhase)).foldl reduceFunc (e.value e.src1)
        src1 := if n=0 then e.src1 else .reducebuf
        log := e.log ++ (List.range n).map (.combine e.curPhase) } := by
  induction n with
  | zero => simp
  | succ n ih =>
    rw [range_succ,foldl_append,ih]
    cases n with
    | zero => simp [combineOne]
    | succ n => simp [combineOne,value]

theorem firstPhase_spec (c : ReduceCache ι) :
    (c.start ≤ firstPhase c ∧ firstPhase c ≤ c.getEndPhase) ∧
      ∀ p, c.start≤p → p < firstPhase c → c.getNumSrcRanks p = 0 := by
  have hskip (n p : ℕ) : p ≤ skipInactive c n p ∧ skipInactive c n p≤p+n ∧
      ∀ q, p≤q → q < skipInactive c n p → c.getNumSrcRanks q=0 := by
    induction n generalizing p with
    | zero =>
      refine ⟨le_refl _,le_refl _,?_⟩
      intro q hq hlt
      exact absurd hlt (not_lt.mpr hq)
    | succ n ih =>
      rw [skipInactive]
      split_ifs with h
      · obtain ⟨hle,hbou,hall⟩ := ih (p+1)
        refine ⟨by omega,by omega,?_⟩
        intro q hq hlt
        rcases eq_or_lt_of_le hq with rfl | hq
        · exact h.2
        · exact hall q hq hlt
      · refine ⟨le_refl _,by omega,?_⟩
        intro q hq hlt
        exact absurd hlt (not_lt.mpr hq)
  obtain ⟨p,hp,hend,-⟩ := c.active
  obtain ⟨hle,hbou,hall⟩ := hskip (c.getEndPhase-c.start) c.start
  have hend' : p ≤ c.getEndPhase := hend
  exact ⟨⟨hle,le_trans hbou (by omega)⟩,hall⟩

end Loops

end AllreduceExec

/-- Parameters of an allreduce and the chunks of its pipeline, of 32 bits. -/
structure AllreduceParams where
  count : ℕ
  bytes : ℕ
  sizeOfType : ℕ
  op : ℕ
  dt : ℕ
  pipewidth : ℕ
  lastChunk : ℕ
  lastChunkCount : ℕ
  fullChunkCount : ℕ

/-- The cache of an allreduce with the sizes of its allocation for receives and of each buffer in it. -/
structure AllreduceCache extends AllreduceParams where
  sizeOfBuffers : ℕ
  receiveAllocationSize : ℕ

/-- `none` is a division by zero. -/
def AllreduceParams.updatePipelineWidth (c : AllreduceParams) (pwidth : ℕ) : Option AllreduceParams :=
  let pw := min pwidth c.bytes
  if c.sizeOfType = 0 then none
  else if c.bytes ≤ pw then
    some { c with pipewidth := pw, lastChunk := 0, fullChunkCount := 0, lastChunkCount := c.bytes / c.sizeOfType }
  else if pw = 0 then none
  else
    some { c with
      pipewidth := pw
      lastChunk := c.bytes / pw + (decide (c.bytes % pw ≠ 0)).toNat - 1
      fullChunkCount := pw / c.sizeOfType
      lastChunkCount := if c.bytes % pw = 0 then pw / c.sizeOfType else c.bytes % pw / c.sizeOfType }

inductive CacheCall
  | init (count sizeOfType op dt pipelineWidth : ℕ)
  | setupReceives (ranks : ℕ) (temp : Bool)
  | freeAllocations (limit : ℕ)

namespace AllreduceCache

variable (c : AllreduceCache)

def init (count sizeOfType op dt pipelineWidth : ℕ) : Option AllreduceCache :=
  let bytes := count * sizeOfType % 2^32
  if c.pipewidth = pipelineWidth ∧ c.sizeOfType = sizeOfType ∧ c.bytes = bytes ∧ c.op = op ∧ c.dt = dt then some c
  else
    let p := { c.toAllreduceParams with count := count, bytes := bytes, sizeOfType := sizeOfType, op := op, dt := dt }
    (p.updatePipelineWidth pipelineWidth).map fun p => { c with toAllreduceParams := p }

def alignedBytes : ℕ := (c.bytes + 63) % 2^32 / 64 * 64

/-- A buffer of this size for each source, and a temporary one on other ranks than the root. -/
def allocationSize (ranks : ℕ) (temp : Bool) (size : ℕ) : ℕ := (ranks * size % 2^32 + if temp then size else 0) % 2^32

def setupReceives (ranks : ℕ) (temp : Bool) : AllreduceCache :=
  if c.receiveAllocationSize < allocationSize ranks temp c.alignedBytes then
    { c with receiveAllocationSize := allocationSize ranks temp c.alignedBytes, sizeOfBuffers := c.alignedBytes }
  else if c.sizeOfBuffers ≤ c.alignedBytes then { c with sizeOfBuffers := c.alignedBytes }
  else if c.receiveAllocationSize < allocationSize ranks temp c.sizeOfBuffers then
    { c with sizeOfBuffers := c.alignedBytes }
  else c

def freeAllocations (limit : ℕ) : AllreduceCache :=
  if limit < c.receiveAllocationSize then ⟨⟨0, 0, 0, c.op, c.dt, 0, 0, 0, 0⟩, 0, 0⟩ else c

def step : CacheCall → Option AllreduceCache
  | .init count sizeOfType op dt pipelineWidth => c.init count sizeOfType op dt pipelineWidth
  | .setupReceives ranks temp => some (c.setupReceives ranks temp)
  | .freeAllocations limit => some (c.freeAllocations limit)

def new (op dt : ℕ) : AllreduceCache := ⟨⟨0, 0, 0, op, dt, 0, 0, 0, 0⟩, 0, 0⟩

/-- The counts of the chunks are as `updatePipelineWidth` works them out. -/
def Chunked (p : AllreduceParams) : Prop := p.sizeOfType = 0 ∨ p.updatePipelineWidth p.pipewidth = some p

variable {c} {c' : AllreduceCache} {p p' : AllreduceParams} {pw s q r b count op dt op' dt' ranks : ℕ} {temp : Bool}

theorem updatePipelineWidth_chunked (h : p.updatePipelineWidth pw = some p') : Chunked p' := by
  unfold AllreduceParams.updatePipelineWidth at h
  dsimp only at h
  split_ifs at h with hs hle hpw hr
  all_goals
    obtain rfl := Option.some.inj h
    simp [Chunked,AllreduceParams.updatePipelineWidth, *]

theorem step_chunked {e : CacheCall} (h : Chunked c.toAllreduceParams) (hs : c.step e = some c') :
    Chunked c'.toAllreduceParams := by
  cases e with
  | init count sizeOfType op dt pipelineWidth =>
    rw [step,init] at hs
    split at hs
    · exact Option.some.inj hs ▸ h
    · obtain ⟨p,hp,rfl⟩ := Option.map_eq_some_iff.mp hs
      exact updatePipelineWidth_chunked hp
  | setupReceives ranks temp =>
    obtain rfl := Option.some.inj hs
    unfold setupReceives
    split_ifs <;> exact h
  | freeAllocations limit =>
    obtain rfl := Option.some.inj hs
    rw [freeAllocations]
    split
    · exact .inl rfl
    · exact h

theorem total_iff (hs : 0 < s) (hq : 0<q) (hb : q*pw+r=b) (hbc : b=count*s%2^32) :
    q*(pw/s)+r/s=count ↔ count*s<2^32 ∧ s ∣ pw := by
  have hsum : (q*(pw/s)+r/s)*s+(q*(pw%s)+r%s)=b := by
    calc (q*(pw/s)+r/s)*s+(q*(pw%s)+r%s)
        = q*(pw/s*s+pw%s)+(r/s*s+r%s) := by ring
      _ = b := by rw [Nat.div_add_mod',Nat.div_add_mod',hb]
  constructor
  · intro h
    rw [h] at hsum
    have hrem : q*(pw%s)=0 := by omega
    exact ⟨by omega,Nat.dvd_of_mod_eq_zero ((Nat.mul_eq_zero.mp hrem).resolve_left hq.ne')⟩
  · intro ⟨hlt,hdvd⟩
    rw [Nat.mod_eq_of_lt hlt] at hbc
    have hdr : s ∣ r := (Nat.dvd_add_right (hdvd.mul_left q)).mp (hb ▸ hbc ▸ Dvd.intro_left count rfl)
    rw [Nat.mod_eq_zero_of_dvd hdvd,Nat.mod_eq_zero_of_dvd hdr] at hsum
    exact Nat.eq_of_mul_eq_mul_right hs (by omega)

theorem updatePipelineWidth_covers (hs : 0<p.sizeOfType) (hb : p.bytes=count*p.sizeOfType%2^32)
    (h : p.updatePipelineWidth pw = some p') : p'.lastChunk*p'.fullChunkCount+p'.lastChunkCount=count ↔
      count*p.sizeOfType<2^32 ∧ (count*p.sizeOfType≤pw ∨ p.sizeOfType ∣ pw) := by
  unfold AllreduceParams.updatePipelineWidth at h
  dsimp only at h
  rw [if_neg hs.ne'] at h
  by_cases hle : p.bytes ≤ min pw p.bytes
  · rw [if_pos hle] at h
    obtain rfl := Option.some.inj h
    have hdiv := Nat.div_add_mod' p.bytes p.sizeOfType
    dsimp only
    rw [zero_mul,zero_add]
    constructor
    · intro heq
      rw [heq] at hdiv
      omega
    · intro ⟨hlt,_⟩
      rw [hb,Nat.mod_eq_of_lt hlt,Nat.mul_div_cancel _ hs]
  · have hmin : min pw p.bytes=pw := by omega
    rw [if_neg hle,hmin] at h
    rw [hmin] at hle
    split_ifs at h with hpw hr
    all_goals
      obtain rfl := Option.some.inj h
      have hq : 0<p.bytes/pw := Nat.div_pos (by omega) (Nat.pos_of_ne_zero hpw)
      rw [and_congr_right fun hlt => or_iff_right (by rw [← Nat.mod_eq_of_lt hlt,← hb]; exact hle),
        ← total_iff hs hq (Nat.div_add_mod' p.bytes pw) hb]
      simp only [hr,ne_eq,not_true_eq_false,not_false_eq_true,decide_true,decide_false,Bool.toNat_true,
        Bool.toNat_false,Nat.add_sub_cancel,add_zero,Nat.zero_div]
    rw [← Nat.succ_mul,Nat.succ_eq_add_one,Nat.sub_add_cancel hq]

/-- Whatever was done with the cache before, the chunks of an allreduce have its number of elements, exactly if its bytes
fit into 32 bits and it is one chunk, or its chunks are whole elements. -/
theorem chunks_cover_iff (hrun : Math.Run step (fun _ _ => True) (new op dt) c) (hs : 0 < s)
    (h : c.init count s op' dt' pw = some c') : c'.lastChunk*c'.fullChunkCount + c'.lastChunkCount = count ↔
      count*s < 2^32 ∧ (count*s ≤ pw ∨ s ∣ pw) := by
  have hc : Chunked c.toAllreduceParams := by
    apply hrun.invariant (P := fun c => Chunked c.toAllreduceParams) (.inl rfl)
    exact fun _ _ _ h _ he => step_chunked h he
  rw [init] at h
  split at h
  · rename_i heq
    obtain ⟨hpw,rfl,hb,-⟩ := heq
    obtain rfl := Option.some.inj h
    exact updatePipelineWidth_covers hs hb (hpw ▸ hc.resolve_left hs.ne')
  · obtain ⟨p,hp,rfl⟩ := Option.map_eq_some_iff.mp h
    exact updatePipelineWidth_covers hs rfl hp

theorem chunks_cover_iff_five : ∃ c : AllreduceCache, c.fullChunkCount = 2 ∧ c.lastChunkCount = 1 ∧
    c.lastChunk*c.fullChunkCount + c.lastChunkCount = 5 := by
  have hrun : Math.Run step (fun _ _ => True) (new 0 0) ⟨⟨3,12,4,1,1,8,1,1,2⟩,0,0⟩ :=
    Math.Run.refl.step (e := .init 3 4 1 1 8) trivial rfl
  have hi : init ⟨⟨3,12,4,1,1,8,1,1,2⟩,0,0⟩ 5 8 1 1 16 = some ⟨⟨5,40,8,1,1,16,2,1,2⟩,0,0⟩ := rfl
  exact ⟨_,rfl,rfl,(chunks_cover_iff hrun (by decide) hi).mpr (by decide)⟩

/-- Where `setupReceives` puts the buffer of a source, and behind the last one the temporary buffer. -/
def recvBuf (c : AllreduceCache) (i : ℕ) : ℕ := i * c.sizeOfBuffers % 2^32

/-- The buffers are long enough, in the allocation, and one behind the other. -/
structure Placed (ranks : ℕ) (temp : Bool) (c : AllreduceCache) : Prop where
  long : c.bytes ≤ c.sizeOfBuffers
  inside : ∀ i < ranks + temp.toNat, c.recvBuf i + c.sizeOfBuffers ≤ c.receiveAllocationSize
  disjoint : ∀ i j, i < j → j < ranks + temp.toNat → c.recvBuf i + c.sizeOfBuffers ≤ c.recvBuf j

theorem placed_of_allocation (hl : c.bytes ≤ c.sizeOfBuffers)
    (hall : allocationSize ranks temp c.sizeOfBuffers ≤ c.receiveAllocationSize)
    (hlt : (ranks+temp.toNat)*c.sizeOfBuffers<2^32) : Placed ranks temp c := by
  have hsi : allocationSize ranks temp c.sizeOfBuffers=(ranks+temp.toNat)*c.sizeOfBuffers := by
    cases temp with
    | false => simpa [allocationSize] using hlt
    | true =>
      rw [Bool.toNat_true,Nat.succ_mul] at hlt ⊢
      rw [allocationSize,if_pos rfl,Nat.mod_eq_of_lt (a := ranks*_) (by omega),Nat.mod_eq_of_lt hlt]
  have hbuf {i : ℕ} (hi : i < ranks+temp.toNat) : c.recvBuf i=i*c.sizeOfBuffers :=
    Nat.mod_eq_of_lt ((Nat.mul_le_mul_right _ hi.le).trans_lt hlt)
  refine ⟨hl,fun i hi => ?_,fun i j hij hj => ?_⟩
  · rw [hbuf hi,← Nat.succ_mul]
    exact (Nat.mul_le_mul_right _ hi).trans (hsi ▸ hall)
  · rw [hbuf hj,hbuf (hij.trans hj),← Nat.succ_mul]
    exact Nat.mul_le_mul_right _ hij

/-- From every state of the cache the buffers are placed, if no size wraps, that of the larger buffers of before included. -/
theorem setupReceives_placed (hb : c.bytes + 63 < 2^32)
    (hlt : (ranks + temp.toNat)*max c.alignedBytes c.sizeOfBuffers < 2^32) :
    Placed ranks temp (c.setupReceives ranks temp) := by
  have hle : c.bytes ≤ c.alignedBytes := by
    rw [alignedBytes,Nat.mod_eq_of_lt hb]
    omega
  have hal := (Nat.mul_le_mul_left _ (le_max_left _ _)).trans_lt hlt
  have hsz := (Nat.mul_le_mul_left _ (le_max_right _ _)).trans_lt hlt
  unfold setupReceives
  split_ifs with h h' h''
  · exact placed_of_allocation hle le_rfl hal
  · exact placed_of_allocation hle (not_lt.mp h) hal
  · exact placed_of_allocation hle (not_lt.mp h) hal
  · exact placed_of_allocation (hle.trans (not_le.mp h').le) (not_lt.mp h'') hsz

theorem setupReceives_placed_four : Placed 4 true (setupReceives ⟨⟨5, 40, 8, 1, 1, 16, 2, 1, 2⟩, 128, 640⟩ 4 true) :=
  setupReceives_placed (by decide) (by decide)

end AllreduceCache

end PAMI.Executor
