import PAMI.Pwq.Dispatch

namespace PAMI.Pwq

open PAMI.Math List Option Nat BitVec

variable {β : Type*} {i : ℕ}

theorem contig_ofNat {h : PwqHeader} (hseq : h.pwqSeqNo = BitVec.ofNat 32 i) (hi : i<2^28) :
    h.contig=0 := by
  have hmask : ∀ {j}, j<32 → (0xF0000000#32).getLsbD j = decide (28≤j) := by decide
  apply eq_of_getLsbD_eq
  intro j hj
  rw [PwqHeader.contig,hseq,getLsbD_and,hmask hj,getLsbD_ofNat]
  by_cases hlow : j<28
  · simp [Nat.not_le.mpr hlow]
  · have hbit : i.testBit j=false := testBit_lt_two_pow (hi.trans_le (Nat.pow_le_pow_right (by omega) (by omega)))
    simp [hbit]

theorem contig_contigFlag {h : PwqHeader} (hseq : h.pwqSeqNo=contigFlag) : h.contig≠0 := by
  rw [PwqHeader.contig,hseq]
  decide

theorem seqNo_ofNat {h : PwqHeader} (hseq : h.pwqSeqNo = BitVec.ofNat 32 i) (hi : i<2^28) :
    h.seqNo.toNat=i := by
  have hmod : 0x0FFFFFFF=2^28-1 := by decide
  rw [PwqHeader.seqNo,hseq,toNat_and,BitVec.toNat_ofNat,BitVec.toNat_ofNat,
    mod_eq_of_lt (by omega),mod_eq_of_lt (by omega),hmod,and_two_pow_sub_one_eq_mod,
    mod_eq_of_lt hi]

namespace SendPWQ

variable {queue : List (List β)} {s s' : SendPWQ β} {e : SendEvent} {connectionId pwqMsgId : BitVec 32}
  {c : Chunk β}

structure Labelled (connectionId pwqMsgId : BitVec 32) (s : SendPWQ β) : Prop where
  connection : s.header.connectionId = connectionId
  message : s.header.pwqMsgId = pwqMsgId
  chunks : ∀ c ∈ s.chunks, c.header.connectionId = connectionId ∧ c.header.pwqMsgId = pwqMsgId

section

variable (h : Labelled connectionId pwqMsgId s)
include h

theorem Labelled.simple (inTmpbuf : Bool) (data : List β) :
    Labelled connectionId pwqMsgId (s.simple inTmpbuf data) := by
  refine ⟨h.connection,h.message,fun c hc => ?_⟩
  obtain hc | hc := mem_append.mp hc
  · exact h.chunks c hc
  · rw [mem_singleton.mp hc]
    exact ⟨h.connection,h.message⟩

theorem Labelled.sendBuffer : Labelled connectionId pwqMsgId s.sendBuffer := by
  simp only [SendPWQ.sendBuffer]
  split
  case isTrue => exact ⟨h.connection,h.message,h.chunks⟩
  case isFalse =>
    apply Labelled.simple
    exact ⟨h.connection,h.message,h.chunks⟩

theorem Labelled.resend : Labelled connectionId pwqMsgId s.resend := by
  rw [SendPWQ.resend]
  split
  case isTrue =>
    apply Labelled.simple
    exact ⟨h.connection,h.message,h.chunks⟩
  case isFalse => exact h.sendBuffer

theorem Labelled.step (hs : s.step e = some s') : Labelled connectionId pwqMsgId s' := by
  cases e with
  | work =>
    obtain ⟨-,rfl⟩ := ite_some_none_eq_some.mp hs
    exact h.resend
  | chunkDone =>
    obtain ⟨c,-,rfl⟩ := map_eq_some_iff.mp hs
    by_cases hzr : s.totalSndln=0
    · simp only [if_pos hzr]
      exact ⟨h.connection,h.message,h.chunks⟩
    · simp only [if_neg hzr]
      apply Labelled.resend
      exact ⟨h.connection,h.message,h.chunks⟩

end

theorem labelled_simplePWQ (immSendSize headerLength : ℕ) (connectionId pwqMsgId : BitVec 32) (bytes : ℕ)
    (queue : List (List β)) : Labelled connectionId pwqMsgId
      (simplePWQ immSendSize headerLength connectionId pwqMsgId bytes queue) := by
  rw [simplePWQ]
  split
  case isTrue =>
    have hsta : Labelled connectionId pwqMsgId
        (⟨⟨connectionId,pwqMsgId,contigFlag⟩,queue,[],0,false,none,[],0⟩ : SendPWQ β) :=
      ⟨rfl,rfl,fun c hc => absurd hc not_mem_nil⟩
    have hone := hsta.simple false (bufferToConsume queue)
    simp only
    split
    case isTrue => exact ⟨hone.connection,hone.message,hone.chunks⟩
    case isFalse => exact hone
  case isFalse =>
    apply Labelled.sendBuffer
    exact ⟨rfl,rfl,fun c hc => absurd hc not_mem_nil⟩

theorem chunks_sendBuffer (s : SendPWQ β) : s.chunks <+: s.sendBuffer.chunks := by
  simp only [SendPWQ.sendBuffer]
  split
  case isTrue => exact prefix_rfl
  case isFalse => exact prefix_append _ _

theorem chunks_resend (s : SendPWQ β) : s.chunks <+: s.resend.chunks := by
  rw [SendPWQ.resend]
  split
  case isTrue => exact prefix_append _ _
  case isFalse => exact chunks_sendBuffer s

theorem chunks_step (hs : s.step e = some s') : s.chunks <+: s'.chunks := by
  cases e with
  | work =>
    obtain ⟨-,rfl⟩ := ite_some_none_eq_some.mp hs
    exact chunks_resend s
  | chunkDone =>
    obtain ⟨c,-,rfl⟩ := map_eq_some_iff.mp hs
    by_cases hzr : s.totalSndln=0
    · simp only [if_pos hzr]
      exact prefix_rfl
    · simp only [if_neg hzr]
      exact chunks_resend { s with
        header := { s.header with pwqSeqNo := s.header.pwqSeqNo+1 }, unfinished := none }

theorem Sending.pwqSeqNo (h : Sending queue s) (hc : s.chunks[i]? = some c) :
    c.header.pwqSeqNo = BitVec.ofNat 32 i := by
  have hnum := congrArg (·[i]?) h.numbers
  have hi := (List.getElem?_eq_some_iff.mp hc).1
  simpa [hc,List.getElem?_range hi] using hnum

theorem Sending.packs_get (h : Sending queue s) (hft : Fits tmpbufSize queue) (hc : s.chunks[i]? = some c) :
    (packs tmpbufSize queue.length queue)[i]? = some c.data := by
  have hi := (List.getElem?_eq_some_iff.mp hc).1
  rw [← h.all_packs hft,List.getElem?_append_left (by simpa using hi),List.getElem?_map,hc,map_some]

theorem Sending.chunks_end (h : Sending queue s) (hft : Fits tmpbufSize queue)
    (hend : s.unfinished=none) : s.chunks.map Chunk.data = packs tmpbufSize queue.length queue := by
  obtain hpla | ⟨-,hzr,-⟩ := h.place
  · simp [hend] at hpla
  · have hall := h.all_packs hft
    rwa [show s.rest = [] from if_pos hzr,packs_nil,append_nil] at hall

end SendPWQ

end PAMI.Pwq
