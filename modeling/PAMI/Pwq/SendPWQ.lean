import Mathlib.Data.List.Range
import PAMI.Math.Packing
import PAMI.Math.Runs

namespace PAMI.Pwq

open PAMI.Math List Option

def tmpbufSize : ℕ := 16*1024

/-- The numbers of a `sendpwqHdr_t`. -/
structure PwqHeader where
  connectionId : BitVec 32
  pwqMsgId : BitVec 32
  pwqSeqNo : BitVec 32
  deriving DecidableEq, Repr

/-- The sequence number of a message that is sent in one piece. -/
def contigFlag : BitVec 32 := 0x10000000

section Source

variable {β : Type*}

/-- A source queue is the list of the contiguous blocks that it has not consumed. -/
@[grind =] def bytesAvailableToConsume : List (List β) → ℕ
  | [] => 0
  | b :: _ => b.length

def bufferToConsume : List (List β) → List β
  | [] => []
  | b :: _ => b

/-- The loop that copies blocks to the temporary buffer and consumes them. -/
def copyLoop (size : ℕ) : List β → List (List β) → List β × List (List β)
  | buf, [] => (buf, [])
  | buf, b :: q =>
    if b.length = 0 then (buf, b :: q)
    else if buf.length + b.length ≤ size then copyLoop size (buf ++ b) q
    else (buf, b :: q)

end Source

/-- A simple send: its header, whether its data is in the temporary buffer, and the data. -/
structure Chunk (β : Type*) where
  header : PwqHeader
  inTmpbuf : Bool
  data : List β
  deriving DecidableEq, Repr

/-- A message that is sent from a pipe work queue to one destination, with the simple send that is not
completed. All its simple sends, and how often the local completion of the user ran, is for the
statements. -/
structure SendPWQ (β : Type*) where
  header : PwqHeader
  pwq : List (List β)
  tmpbuf : List β
  totalSndln : ℕ
  workPosted : Bool
  unfinished : Option (Chunk β)
  chunks : List (Chunk β)
  localDone : ℕ
  deriving DecidableEq, Repr

/-- A simple send completes, inside of its call or later, or the work function runs. -/
inductive SendEvent where
  | chunkDone
  | work
  deriving DecidableEq, Repr

namespace SendPWQ

variable {β : Type*}

def simple (s : SendPWQ β) (inTmpbuf : Bool) (data : List β) : SendPWQ β :=
  { s with
    unfinished := some ⟨s.header, inTmpbuf, data⟩
    chunks := s.chunks ++ [⟨s.header, inTmpbuf, data⟩] }

/-- The next chunk goes through the temporary buffer. It is sent when a block does not fit, whatever
is in the buffer then, or when the queue has no more and the buffer something. -/
def sendBuffer (s : SendPWQ β) : SendPWQ β :=
  let copied := copyLoop (min s.totalSndln tmpbufSize) [] s.pwq
  let s := { s with
    pwq := copied.2
    tmpbuf := copied.1
    totalSndln := s.totalSndln - copied.1.length }
  if bytesAvailableToConsume copied.2 = 0 ∧ copied.1.length = 0 then { s with workPosted := true }
  else { s with workPosted := false }.simple true copied.1

/-- `simplePWQ` of a state, for one destination. -/
def resend (s : SendPWQ β) : SendPWQ β :=
  if s.totalSndln ≤ bytesAvailableToConsume s.pwq then
    { s with totalSndln := 0, workPosted := false }.simple false
      ((bufferToConsume s.pwq).take s.totalSndln)
  else s.sendBuffer

/-- `simplePWQ` to an endpoint, with the limit of immediate sends. -/
def simplePWQ (immSendSize headerLength : ℕ) (connectionId pwqMsgId : BitVec 32) (bytes : ℕ)
    (pwq : List (List β)) : SendPWQ β :=
  if bytes ≤ bytesAvailableToConsume pwq then
    let s : SendPWQ β := ⟨⟨connectionId, pwqMsgId, contigFlag⟩, pwq, [], 0, false, none, [], 0⟩
    let s := s.simple false (bufferToConsume pwq)
    if bytesAvailableToConsume pwq + (headerLength + 12) ≤ immSendSize then
      { s with unfinished := none, localDone := 1 }
    else s
  else sendBuffer ⟨⟨connectionId, pwqMsgId, 0⟩, pwq, [], bytes, false, none, [], 0⟩

/-- `sendPWQChunkDone` -/
def chunkDone (s : SendPWQ β) : Option (SendPWQ β) := s.unfinished.map fun _ =>
  let s := { s with
    header := { s.header with pwqSeqNo := s.header.pwqSeqNo + 1 }
    unfinished := none }
  if s.totalSndln = 0 then { s with localDone := s.localDone + 1 } else s.resend

def step (s : SendPWQ β) : SendEvent → Option (SendPWQ β)
  | .chunkDone => s.chunkDone
  | .work => if s.workPosted then some s.resend else none

end SendPWQ

variable {β : Type*} {q : List (List β)}

theorem copyLoop_eq_fill (size : ℕ) (buf : List β) (hq : ∀ b ∈ q, b ≠ []) :
    copyLoop size buf q = fill size buf q := by
  induction q generalizing buf with
  | nil => rfl
  | cons b q ih =>
    have hb : b.length≠0 := by simpa using hq b (by simp)
    simp only [copyLoop,fill,if_neg hb,ih (buf ++ b) fun c hc => hq c (by simp [hc])]

namespace SendPWQ

/-- The blocks that are neither in a chunk nor in a message that is sent in one piece. -/
def rest (s : SendPWQ β) : List (List β) := if s.totalSndln = 0 then [] else s.pwq

/-- What holds of a message in chunks: the chunks are those that the blocks are packed in, and the last
one is not completed, or it was the last of all. -/
structure Sending (queue : List (List β)) (s : SendPWQ β) : Prop where
  blocks : ∀ b ∈ s.pwq, b ≠ []
  total : s.totalSndln = s.rest.flatten.length
  packed : ∀ n, s.chunks.map Chunk.data ++ packs tmpbufSize n s.rest = packs tmpbufSize (s.chunks.length + n) queue
  numbers : s.chunks.map (fun c => c.header.pwqSeqNo) = (List.range s.chunks.length).map (BitVec.ofNat 32)
  header : s.header.pwqSeqNo + (if s.unfinished.isSome then 1 else 0) = BitVec.ofNat 32 s.chunks.length
  notPosted : s.workPosted = false
  buffer : ∀ c ∈ s.unfinished, c.inTmpbuf = true → c.data = s.tmpbuf
  place : (s.unfinished.isSome ∧ s.localDone = 0) ∨ (s.unfinished = none ∧ s.totalSndln = 0 ∧ s.localDone = 1)

variable {queue : List (List β)} {s s' : SendPWQ β}

theorem flatten_pos (hq : ∀ b ∈ q, b ≠ []) (hne : q ≠ []) : 0<q.flatten.length := by
  cases q with
  | nil => exact absurd rfl hne
  | cons b q =>
    have hb : 0<b.length := length_pos_of_ne_nil (hq b (by simp))
    simp only [flatten_cons,length_append]
    omega

/-- A chunk is sent while all earlier ones are completed. -/
structure Ready (queue : List (List β)) (s : SendPWQ β) : Prop where
  blocks : ∀ b ∈ s.pwq, b ≠ []
  total : s.totalSndln = s.pwq.flatten.length
  packed : ∀ n, s.chunks.map Chunk.data ++ packs tmpbufSize n s.pwq = packs tmpbufSize (s.chunks.length + n) queue
  numbers : s.chunks.map (fun c => c.header.pwqSeqNo) = (List.range s.chunks.length).map (BitVec.ofNat 32)
  header : s.header.pwqSeqNo = BitVec.ofNat 32 s.chunks.length
  localDone : s.localDone = 0

theorem Ready.simple (h : Ready queue s) {pwq : List (List β)} {tmpbuf data : List β} {total : ℕ}
    {inTmpbuf : Bool} (hblc : ∀ b ∈ pwq, b ≠ [])
    (htot : total=(if total=0 then [] else pwq).flatten.length)
    (hpac : ∀ n, data :: packs tmpbufSize n (if total=0 then [] else pwq) =
      packs tmpbufSize (n+1) s.pwq) (hbuf : inTmpbuf=true → data=tmpbuf) :
    Sending queue ({ s with
      pwq := pwq, tmpbuf := tmpbuf, totalSndln := total, workPosted := false }.simple inTmpbuf data) := by
  refine ⟨hblc,htot,fun n => ?_,?_,?_,rfl,?_,.inl ⟨rfl,h.localDone⟩⟩
  · have hall := h.packed (n+1)
    rw [← hpac n] at hall
    simp only [SendPWQ.simple,rest,map_append,map_cons,map_nil,List.append_assoc,
      List.cons_append,nil_append,length_append,length_cons,length_nil]
    refine hall.trans ?_
    rw [zero_add,add_assoc,add_comm 1 n]
  · simp [SendPWQ.simple,h.numbers,h.header,range_succ]
  · simp [SendPWQ.simple,h.header,BitVec.ofNat_add]
  · intro c hc hin
    obtain rfl := some.inj hc
    exact hbuf hin

theorem Ready.sendBuffer (h : Ready queue s) {b c : List β} (hpwq : s.pwq = b :: c :: q) :
    Sending queue s.sendBuffer := by
  have hcopy : copyLoop (min s.totalSndln tmpbufSize) [] s.pwq = fill tmpbufSize [] s.pwq := by
    rw [copyLoop_eq_fill _ _ h.blocks,fill_min (by simp [h.total])]
  obtain ⟨pre,hq,-,-⟩ := @fill_split β tmpbufSize [] s.pwq
  have hflat := @fill_flatten β tmpbufSize [] s.pwq
  have hblc : ∀ b ∈ (fill tmpbufSize [] s.pwq).2, b ≠ [] := by
    intro b hb
    apply h.blocks
    rw [hq]
    exact mem_append_right _ hb
  have htot : s.totalSndln-(fill tmpbufSize [] s.pwq).1.length=(fill tmpbufSize [] s.pwq).2.flatten.length := by
    have hlen := congrArg List.length hflat
    rw [nil_append,length_append,← h.total] at hlen
    omega
  have hrs : (if (fill tmpbufSize [] s.pwq).2.flatten.length=0 then []
      else (fill tmpbufSize [] s.pwq).2)=(fill tmpbufSize [] s.pwq).2 := by
    split
    case isTrue hzr =>
      by_contra hne
      have := flatten_pos hblc (Ne.symm hne)
      omega
    case isFalse => rfl
  have hsd : ¬ (bytesAvailableToConsume (fill tmpbufSize [] s.pwq).2=0 ∧
      (fill tmpbufSize [] s.pwq).1.length=0) := by
    intro ⟨hava,hzr⟩
    have hnil : (fill tmpbufSize [] s.pwq).2 = [] := by
      cases hrs : (fill tmpbufSize [] s.pwq).2 with
      | nil => rfl
      | cons d r =>
        rw [hrs] at hava hblc
        exact absurd (eq_nil_of_length_eq_zero hava) (hblc d (by simp))
    have hlen := congrArg List.length hflat
    have hpos := flatten_pos h.blocks (by simp [hpwq])
    simp only [hnil,flatten_nil,append_nil,nil_append,hzr] at hlen
    omega
  simp only [SendPWQ.sendBuffer,hcopy,if_neg hsd]
  refine h.simple hblc ?_ (fun n => ?_) fun _ => rfl
  · rw [htot,hrs]
  · rw [htot,hrs,hpwq,packs]

theorem Ready.resend (h : Ready queue s) (hne : s.pwq ≠ []) : Sending queue s.resend := by
  have hpos := flatten_pos h.blocks hne
  cases hpwq : s.pwq with
  | nil => exact absurd hpwq hne
  | cons b q =>
    cases q with
    | nil =>
      have htot : s.totalSndln=b.length := by simp [h.total,hpwq]
      have hda : (bufferToConsume s.pwq).take s.totalSndln=b := by simp [hpwq,htot,bufferToConsume]
      have hle : s.totalSndln≤bytesAvailableToConsume s.pwq := by simp [hpwq,htot,bytesAvailableToConsume]
      simp only [SendPWQ.resend,if_pos hle,hda]
      exact h.simple h.blocks rfl (fun n => by simp [hpwq,packs,packs_nil]) (by simp)
    | cons c q =>
      have hc : 0 < c.length := length_pos_of_ne_nil (h.blocks c (by simp [hpwq]))
      have hnot : ¬ s.totalSndln≤bytesAvailableToConsume s.pwq := by
        rw [h.total,hpwq]
        simp only [bytesAvailableToConsume,flatten_cons,length_append]
        omega
      rw [SendPWQ.resend,if_neg hnot]
      exact h.sendBuffer hpwq

theorem Sending.step {e : SendEvent} (h : Sending queue s) (hs : s.step e = some s') :
    Sending queue s' := by
  cases e with
  | work => simp [SendPWQ.step,h.notPosted] at hs
  | chunkDone =>
    obtain ⟨c,hc,rfl⟩ := map_eq_some_iff.mp hs
    have hpla : s.localDone=0 := by
      obtain hpla | hpla := h.place
      · exact hpla.2
      · simp [hpla.1] at hc
    have hhea : s.header.pwqSeqNo+1=BitVec.ofNat 32 s.chunks.length := by simpa [hc] using h.header
    by_cases hzr : s.totalSndln=0
    · rw [if_pos hzr]
      exact ⟨h.blocks,h.total,h.packed,h.numbers,by simpa using hhea,h.notPosted,by simp,
        .inr ⟨rfl,hzr,by simp [hpla]⟩⟩
    · rw [if_neg hzr]
      have hrs : s.rest=s.pwq := if_neg hzr
      have htot := h.total
      have hpac := h.packed
      rw [hrs] at htot hpac
      have hrea : Ready queue { s with
          header := { s.header with pwqSeqNo := s.header.pwqSeqNo+1 }, unfinished := none } :=
        ⟨h.blocks,htot,hpac,h.numbers,hhea,hpla⟩
      apply hrea.resend
      intro hnil
      replace hnil : s.pwq = [] := hnil
      simp [hnil] at htot
      exact hzr htot

theorem sending_simplePWQ (immSendSize headerLength : ℕ) (connectionId pwqMsgId : BitVec 32)
    (hq : ∀ b ∈ queue, b ≠ []) (hnc : bytesAvailableToConsume queue < queue.flatten.length) :
    Sending queue (simplePWQ immSendSize headerLength connectionId pwqMsgId queue.flatten.length queue) := by
  rw [simplePWQ,if_neg (Nat.not_le.mpr hnc)]
  have hrea : Ready queue (⟨⟨connectionId,pwqMsgId,0⟩,queue,[],queue.flatten.length,false,none,[],
      0⟩ : SendPWQ β) := ⟨hq,rfl,by simp,rfl,rfl,rfl⟩
  match queue, hnc with
  | [], hnc => simp at hnc
  | [b], hnc => simp [bytesAvailableToConsume] at hnc
  | b :: c :: q, _ => exact hrea.sendBuffer rfl

end SendPWQ

variable {β : Type*}

namespace SendPWQ

variable {queue : List (List β)} {s s' : SendPWQ β}

/-- What a state of a send says: the chunks so far are the beginning of the message, numbered and not empty, an open one is
still in the temporary buffer, and when none is open, all was sent, and the local completion has run, once. -/
structure Transmitted (message : List β) (s : SendPWQ β) : Prop where
  numbers : s.chunks.map (fun c => c.header.pwqSeqNo.toNat) = List.range s.chunks.length
  nonempty : ∀ c ∈ s.chunks, c.data ≠ []
  content : (s.chunks.map Chunk.data).flatten <+: message
  buffer : ∀ c ∈ s.unfinished, c.inTmpbuf = true → c.data = s.tmpbuf
  running : s.unfinished.isSome = true → s.localDone = 0
  done : s.unfinished = none → (s.chunks.map Chunk.data).flatten = message ∧ s.localDone = 1

/-- In every run all states are right, the number of chunks is bounded, and the end is reached. -/
def Transmits (message : List β) (start : SendPWQ β) : Prop :=
  (∀ s, Run step (fun _ _ => True) start s → Transmitted message s) ∧
    (∃ n, ∀ s, Run step (fun _ _ => True) start s → s.chunks.length ≤ n) ∧
    ∃ s, Run step (fun _ _ => True) start s ∧ s.unfinished = none

theorem Sending.chunks_eq (h : Sending queue s) :
    s.chunks.map Chunk.data = packs tmpbufSize s.chunks.length queue := by
  simpa [packs] using h.packed 0

theorem Sending.all_packs (h : Sending queue s) (hft : Fits tmpbufSize queue) :
    s.chunks.map Chunk.data ++ packs tmpbufSize queue.length s.rest = packs tmpbufSize queue.length queue := by
  rw [h.packed]
  exact hft.packs_stable (by omega) le_rfl

theorem Sending.numbers_iff (h : Sending queue s) :
    s.chunks.map (fun c => c.header.pwqSeqNo.toNat) = List.range s.chunks.length ↔ s.chunks.length≤2^32 := by
  have hmap : s.chunks.map (fun c => c.header.pwqSeqNo.toNat) = (List.range s.chunks.length).map (· % 2^32) := by
    have := congrArg (List.map BitVec.toNat) h.numbers
    simpa [Function.comp_def] using this
  rw [hmap]
  constructor
  · intro heq
    by_contra hlt
    have hget := congrArg (fun l => l[2^32]?) heq
    simp only [List.getElem?_map,List.getElem?_range (Nat.not_le.mp hlt),map_some,Nat.mod_self,
      Option.some.injEq] at hget
    omega
  · intro hle
    apply (map_congr_left fun i hi => ?_).trans (List.map_id _)
    exact Nat.mod_eq_of_lt ((mem_range.mp hi).trans_le hle)

theorem Sending.transmitted (h : Sending queue s) (hq : ∀ b ∈ queue, b ≠ [])
    (hft : Fits tmpbufSize queue) (hcou : (packs tmpbufSize queue.length queue).length≤2^32) :
    Transmitted queue.flatten s := by
  have hall := h.all_packs hft
  have hlen := congrArg List.length hall
  simp only [length_append,length_map] at hlen
  refine ⟨h.numbers_iff.mpr (by omega),fun c hc => ?_,?_,h.buffer,fun hso => ?_,fun hnn => ?_⟩
  · apply hft.packs_ne_nil (n := s.chunks.length) hq
    rw [← h.chunks_eq]
    exact List.mem_map_of_mem hc
  · rw [h.chunks_eq]
    exact packs_prefix
  · obtain hpla | hpla := h.place
    · exact hpla.2
    · simp [hpla.1] at hso
  · obtain hpla | ⟨-,hzr,hdn⟩ := h.place
    · simp [hnn] at hpla
    · refine ⟨?_,hdn⟩
      rw [show s.rest = [] from if_pos hzr,packs_nil,append_nil] at hall
      rw [hall]
      exact hft.packs_flatten le_rfl

theorem progress (hso : s.unfinished.isSome=true) :
    ∃ s', s.step .chunkDone = some s' ∧ (s'.chunks.length=s.chunks.length+1 ∨ s'.unfinished=none) := by
  obtain ⟨c,hc⟩ := isSome_iff_exists.mp hso
  simp only [step,chunkDone,hc,map_some,some_inj,exists_eq_left']
  split
  · exact .inr rfl
  · simp only [resend]
    split
    · simp [simple]
    · simp only [sendBuffer]
      split
      · exact .inr rfl
      · simp [simple]

theorem reach (hsta : Sending queue s) (n : ℕ) :
    ∃ s', Run step (fun _ _ => True) s s' ∧ Sending queue s' ∧ (n ≤ s'.chunks.length ∨ s'.unfinished=none) := by
  induction n with
  | zero => exact ⟨s,.refl,hsta,.inl (Nat.zero_le _)⟩
  | succ n ih =>
    obtain ⟨s1,hrun,hs1,hlen | hnn⟩ := ih
    · cases hopen : s1.unfinished with
      | none => exact ⟨s1,hrun,hs1,.inr hopen⟩
      | some c =>
        obtain ⟨s2,hsp,hnx⟩ := progress (s := s1) (by simp [hopen])
        refine ⟨s2,hrun.step trivial hsp,hs1.step hsp,?_⟩
        obtain hnx | hnx := hnx
        · exact .inl (by omega)
        · exact .inr hnx
    · exact ⟨s1,hrun,hs1,.inr hnn⟩

theorem Sending.length_le (h : Sending queue s) (hft : Fits tmpbufSize queue) :
    s.chunks.length≤queue.length := by
  have hle := hft.packs_length_le (n := s.chunks.length)
  rwa [← h.chunks_eq,length_map] at hle

theorem reach_end (hsta : Sending queue s) (hft : Fits tmpbufSize queue) :
    ∃ s', Run step (fun _ _ => True) s s' ∧ Sending queue s' ∧ s'.unfinished=none := by
  obtain ⟨s',hrun,hs',hrch⟩ := reach hsta (queue.length+1)
  have hlen := hs'.length_le hft
  exact ⟨s',hrun,hs',hrch.resolve_left (by omega)⟩

/-- A message that is not contiguous is transmitted exactly if all its blocks but the last one fit into
the temporary buffer, and their chunks can be numbered. -/
theorem transmits_iff (immSendSize headerLength : ℕ) (connectionId pwqMsgId : BitVec 32)
    (hq : ∀ b ∈ queue, b ≠ []) (hnc : bytesAvailableToConsume queue < queue.flatten.length) :
    Transmits queue.flatten
        (simplePWQ immSendSize headerLength connectionId pwqMsgId queue.flatten.length queue) ↔
      Fits tmpbufSize queue ∧ (packs tmpbufSize queue.length queue).length ≤ 2^32 := by
  have hsta := sending_simplePWQ immSendSize headerLength connectionId pwqMsgId hq hnc
  have hrun : ∀ s, Run step (fun _ _ => True)
      (simplePWQ immSendSize headerLength connectionId pwqMsgId queue.flatten.length queue) s →
      Sending queue s :=
    fun s h => h.invariant hsta fun _ _ _ hs _ hsp => hs.step hsp
  constructor
  · intro h
    obtain ⟨hgood,-⟩ := h
    have hft : Fits tmpbufSize queue := by
      by_contra hft
      obtain ⟨m,hm⟩ := nil_mem_packs hft
      obtain ⟨s,hs,hsen,hrch⟩ := reach hsta m
      have hnil : [] ∈ s.chunks.map Chunk.data := by
        obtain hle | hnn := hrch
        · rw [hsen.chunks_eq]
          obtain ⟨k,hk⟩ := Nat.exists_eq_add_of_le hle
          rw [hk]
          exact (packs_mono m k queue).subset hm
        · obtain hpla | ⟨-,hzr,-⟩ := hsen.place
          · simp [hnn] at hpla
          · have hall := hsen.packed m
            rw [show s.rest = [] from if_pos hzr,packs_nil,append_nil] at hall
            rw [hall,add_comm]
            exact (packs_mono m _ queue).subset hm
      obtain ⟨c,hc,hda⟩ := List.mem_map.mp hnil
      exact (hgood s hs).nonempty c hc hda
    refine ⟨hft,?_⟩
    obtain ⟨s,hs,hsen,hnn⟩ := reach_end hsta hft
    obtain hpla | ⟨-,hzr,-⟩ := hsen.place
    · simp [hnn] at hpla
    · have hall := hsen.all_packs hft
      rw [show s.rest = [] from if_pos hzr,packs_nil,append_nil] at hall
      rw [← hall,length_map]
      exact hsen.numbers_iff.mp (hgood s hs).numbers
  · intro ⟨hft,hcou⟩
    obtain ⟨s,hs,-,hnn⟩ := reach_end hsta hft
    exact ⟨fun s hs => (hrun s hs).transmitted hq hft hcou,
      ⟨queue.length,fun s hs => (hrun s hs).length_le hft⟩,s,hs,hnn⟩

theorem transmits_two_blocks :
    Transmits [[1], [2]].flatten (simplePWQ 0 0 0 0 [[1], [2]].flatten.length [[1], [2]]) :=
  (transmits_iff 0 0 0 0 (by decide) (by decide)).mpr ⟨by decide,by decide⟩

theorem sendBuffer_stuck {b : List β} {q : List (List β)} (hb : tmpbufSize<b.length)
    (hpwq : s.pwq = b :: q) : s.sendBuffer.chunks = s.chunks ++ [⟨s.header,true,[]⟩] := by
  have hne : b.length≠0 := by omega
  have hlt : ¬ ([] : List β).length+b.length ≤ min s.totalSndln tmpbufSize := by
    rw [length_nil]
    omega
  have hcopy : copyLoop (min s.totalSndln tmpbufSize) [] s.pwq=([], b :: q) := by
    rw [hpwq,copyLoop,if_neg hne,if_neg hlt]
  have hsd : ¬ (bytesAvailableToConsume (b :: q)=0 ∧ ([] : List β).length=0) := fun h => hne h.1
  simp only [sendBuffer,hcopy,if_neg hsd,simple]

/-- A block that is one byte too large, and one further byte. -/
theorem large_block_not_transmitted :
    ¬ Transmits (List.replicate 16386 true)
      (simplePWQ 0 0 0 0 16386 [List.replicate 16385 true, [true]]) := by
  intro h
  have hlen : (List.replicate 16385 true).length=16385 := length_replicate
  have hchu : (simplePWQ 0 0 0 0 16386 [List.replicate 16385 true,[true]]).chunks = [⟨⟨0,0,0⟩,true,[]⟩] := by
    rw [simplePWQ,if_neg (by rw [bytesAvailableToConsume,hlen]; decide)]
    exact sendBuffer_stuck (by rw [hlen]; decide) rfl
  refine (h.1 _ .refl).nonempty ⟨⟨0,0,0⟩,true,[]⟩ ?_ rfl
  rw [hchu]
  exact mem_singleton_self _

end SendPWQ

end PAMI.Pwq
