import PAMI.Pwq.Multicast
import PAMI.Pwq.RecvLayout
import PAMI.Pwq.SendHeaders

namespace PAMI.Pwq

open PAMI.Math List Option BitVec Function

variable {β : Type*} {p : McastParams}

theorem copyLoop_length {size : ℕ} {buf : List β} (q : List (List β)) (h : buf.length ≤ size) :
    (copyLoop size buf q).1.length ≤ size := by
  induction q generalizing buf with
  | nil => exact h
  | cons b q ih =>
    rw [copyLoop]
    split
    case isTrue => exact h
    case isFalse =>
      split
      case isTrue hle => exact ih (by rwa [length_append])
      case isFalse => exact h

theorem le_copyLoop (size : ℕ) (buf : List β) (q : List (List β)) :
    buf.length≤(copyLoop size buf q).1.length := by
  induction q generalizing buf with
  | nil => exact le_rfl
  | cons b q ih =>
    rw [copyLoop]
    split
    case isTrue => exact le_rfl
    case isFalse =>
      split
      case isTrue =>
        have := ih (buf ++ b)
        rw [length_append] at this
        omega
      case isFalse => exact le_rfl

theorem copyLoop_pos_iff (size : ℕ) (q : List (List β)) :
    0<(copyLoop size [] q).1.length ↔ 0 < bytesAvailableToConsume q ∧ bytesAvailableToConsume q ≤ size := by
  cases q with
  | nil => simp [copyLoop,bytesAvailableToConsume]
  | cons b q =>
    rw [copyLoop,bytesAvailableToConsume]
    split
    case isTrue hzr => simp [hzr]
    case isFalse hne =>
      have hzr : ([] : List β).length+b.length=b.length := zero_add _
      rw [hzr]
      split
      case isTrue hle =>
        have hmore := le_copyLoop size ([] ++ b) q
        rw [nil_append] at hmore ⊢
        exact iff_of_true (by omega) ⟨by omega,hle⟩
      case isFalse hlt => exact iff_of_false (by simp) (by omega)

namespace McastSend

variable {s s' : McastSend β} {c : Chunk β}

def sent (s : McastSend β) : ℕ := (s.sends.map fun c => c.data.length).sum

def Numbered (p : McastParams) (s : McastSend β) : Prop :=
  ∀ c ∈ s.sends, (c.header.pwqSeqNo = contigFlag ∧ c.data.length = p.bytes) ∨ c.header.pwqSeqNo.toNat < s.sends.length

/-- What the source queue has given is what was copied, and the message when it is done. -/
structure Tally (p : McastParams) (s : McastSend β) : Prop where
  consumed : s.consumed = s.copied + s.done * p.bytes
  once : s.done ≤ 1
  sent : s.sent ≤ p.bytes
  numbered : s.Numbered p

/-- The done callback has not run, and what is not sent is left. -/
structure Pending (p : McastParams) (s : McastSend β) : Prop where
  total : s.sent + s.totalSndln = p.bytes
  countDown : s.doneCountDown = BitVec.ofNat 32 p.ndestinations
  done : s.done = 0

/-- Nothing is outstanding, and the next number is free, if a header for chunks is allocated. -/
structure Ready (p : McastParams) (s : McastSend β) : Prop extends Tally p s, Pending p s where
  outstanding : s.outstanding = 0
  participants : s.participants ≤ p.ndestinations
  number : s.header.pwqSeqNo.toNat ≤ s.sends.length
  mcast : s.mcast = true → s.sends = [] ∧ s.workPosted = false

/-- Where a multicast stands: before a call of `simplePWQ` from outside; in simple sends; or at its end. -/
inductive Place (p : McastParams) (s : McastSend β) : Prop where
  | ready (h : Ready p s) (hpst : s.posted = s.workPosted)
  | sending (h : Pending p s) (hpst : s.posted = true) (hwr : s.workPosted = false)
      (hpos : 0 < s.outstanding) (hout : s.outstanding ≤ max p.ndestinations 1)
      (hpar : s.participants ≤ s.outstanding) (hmore : s.totalSndln ≠ 0 → s.outstanding = max s.participants 1 ∧
        s.mcast = false ∧ s.header.pwqSeqNo.toNat < s.sends.length)
  | ended (hpst : s.posted = true) (hwr : s.workPosted = false)
      (hstop : s.outstanding = 0 ∨ s.done ≠ 0)

structure Sound (p : McastParams) (s : McastSend β) : Prop extends Tally p s where
  place : Place p s

theorem mcastDone_iterate {n : ℕ} (hpos : 0<n) (hlt : n<2^32)
    (hcou : s.doneCountDown = BitVec.ofNat 32 n) :
    (mcastDone p)^[n] s = { s with doneCountDown := 0 }.clientDone p := by
  induction n generalizing s with
  | zero => omega
  | succ n ih =>
    have hnx : s.doneCountDown-1=BitVec.ofNat 32 n := by
      apply eq_of_toNat_eq
      rw [hcou]
      simp only [toNat_sub,BitVec.toNat_ofNat,ofNat_eq_ofNat]
      omega
    rw [iterate_succ_apply]
    by_cases hzr : n=0
    · have hend : s.doneCountDown-1=0 := by rw [hnx,hzr]; rfl
      rw [hzr,iterate_zero,id,mcastDone,if_pos hend,hend]
    · have hgoes : s.doneCountDown-1≠0 := by
        rw [hnx]
        intro h
        have := congrArg BitVec.toNat h
        simp only [BitVec.toNat_ofNat,ofNat_eq_ofNat] at this
        omega
      have hrou : mcastDone p s = { s with doneCountDown := s.doneCountDown-1 } := by rw [mcastDone,if_neg hgoes]
      rw [hrou,ih (pos_of_ne_zero hzr) (by omega) hnx]

theorem copied_append (hsen : s'.sends = s.sends ++ [c]) :
    s'.copied=s.copied+c.inTmpbuf.toNat*c.data.length := by
  obtain ⟨header,inTmpbuf,data⟩ := c
  cases inTmpbuf <;> simp [copied,hsen]

theorem sent_append (hsen : s'.sends = s.sends ++ [c]) : s'.sent=s.sent+c.data.length := by
  simp [sent,hsen]

theorem Ready.append (h : Ready p s) (hsen : s'.sends = s.sends ++ [c])
    (hcns : s'.consumed=s.consumed+c.inTmpbuf.toNat*c.data.length+s'.done*p.bytes)
    (honce : s'.done≤1) (hle : c.data.length ≤ s.totalSndln)
    (hseq : (c.header.pwqSeqNo=contigFlag ∧ c.data.length=p.bytes) ∨
      c.header.pwqSeqNo.toNat ≤ s.sends.length) : Tally p s' := by
  have htot := h.total
  have hbef := h.consumed
  rw [h.done,Nat.zero_mul,Nat.add_zero] at hbef
  have hlng : s'.sends.length=s.sends.length+1 := by rw [hsen,length_append]; rfl
  refine ⟨?_,honce,?_,?_⟩
  · rw [hcns,hbef,copied_append hsen]
  · rw [sent_append hsen]
    omega
  · intro d hd
    rw [hsen] at hd
    obtain hd | hd := mem_append.mp hd
    · obtain hflag | hlow := h.numbered d hd
      · exact .inl hflag
      · exact .inr (by omega)
    · rw [mem_singleton.mp hd]
      obtain hflag | hlow := hseq
      · exact .inl hflag
      · exact .inr (by omega)

theorem Ready.total_of_mcast (h : Ready p s) (hmca : s.mcast=true) :
    s.totalSndln=p.bytes ∧ s.workPosted=false := by
  obtain ⟨hnil,hwr⟩ := h.mcast hmca
  have htot := h.total
  have hsn : s.sent=0 := by rw [McastSend.sent,hnil]; rfl
  exact ⟨by omega,hwr⟩

section

variable (h : Ready p s) (hpst : s.posted = true)
include h hpst

theorem Ready.sendPiece (hlt : p.ndestinations<2^32) (hle : s.totalSndln ≤ bytesAvailableToConsume s.pwq) :
    Sound p (s.sendPiece p) := by
  have hda : ((bufferToConsume s.pwq).take s.totalSndln).length=s.totalSndln := by
    cases hq : s.pwq with
    | nil =>
      rw [hq,bytesAvailableToConsume] at hle
      simp [bufferToConsume]
      omega
    | cons b q =>
      rw [hq,bytesAvailableToConsume] at hle
      rw [bufferToConsume,length_take]
      exact min_eq_left hle
  have hcns : ∀ c : Chunk β, c.inTmpbuf=false →
      s.consumed=s.consumed+c.inTmpbuf.toNat*c.data.length+s.done*p.bytes := by
    intro c hc
    rw [hc,h.done]
    simp
  have honce : s.done≤1 := h.once
  rw [McastSend.sendPiece]
  simp only
  split
  case isTrue hmca =>
    obtain ⟨hbyt,hwr⟩ := h.total_of_mcast hmca
    split
    case isTrue =>
      obtain hnn | hso := eq_zero_or_pos p.ndestinations
      · rw [hnn,iterate_zero,id]
        refine ⟨h.append rfl (hcns _ rfl) honce hda.le (.inl ⟨rfl,hda.trans hbyt⟩),?_⟩
        exact .ended hpst hwr (.inl h.outstanding)
      · rw [mcastDone_iterate hso hlt (by exact h.countDown)]
        refine ⟨h.append rfl ?_ ?_ hda.le (.inl ⟨rfl,hda.trans hbyt⟩),?_⟩
        · simp [clientDone,h.done]
        · simp [clientDone,h.done]
        · exact .ended hpst hwr (.inl h.outstanding)
    case isFalse =>
      refine ⟨h.append rfl (hcns _ rfl) honce hda.le (.inl ⟨rfl,hda.trans hbyt⟩),?_⟩
      refine .sending ⟨?_,h.countDown,h.done⟩ hpst rfl ?_ ?_ ?_ fun hne => absurd rfl hne
      · rw [sent_append (s := s) rfl]
        simpa [hda,simple] using h.total
      all_goals
        simp only [simple,h.outstanding]
        omega
  case isFalse hmca =>
    refine ⟨h.append rfl (hcns _ rfl) honce hda.le (.inr h.number),?_⟩
    refine .sending ⟨?_,h.countDown,h.done⟩ hpst rfl ?_ ?_ ?_ fun hne => absurd rfl hne
    · rw [sent_append (s := s) rfl]
      simpa [hda,simple] using h.total
    all_goals
      have hpar := h.participants
      simp only [simple,h.outstanding]
      omega

theorem Ready.sendBuffer (hgt : bytesAvailableToConsume s.pwq < s.totalSndln) : Sound p (s.sendBuffer p) := by
  have hcop : (copyLoop (min s.totalSndln tmpbufSize) [] s.pwq).1.length ≤ min s.totalSndln tmpbufSize :=
    copyLoop_length s.pwq (Nat.zero_le _)
  rw [McastSend.sendBuffer]
  generalize copyLoop (min s.totalSndln tmpbufSize) [] s.pwq=copied at hcop
  simp only
  split
  case isTrue hemp =>
    have hzr : copied.1.length=0 := hemp.2
    rw [hzr,Nat.add_zero,Nat.sub_zero]
    have htal : Tally p { s with
        mcast := false, pwq := copied.2, participants := p.ndestinations, workPosted := true } :=
      ⟨h.consumed,h.once,h.toTally.sent,h.numbered⟩
    have hrea : Ready p { s with
        mcast := false, pwq := copied.2, participants := p.ndestinations, workPosted := true } :=
      ⟨htal,⟨h.total,h.countDown,h.done⟩,h.outstanding,le_rfl,h.number,fun hmca => by contradiction⟩
    exact ⟨htal,.ready hrea hpst⟩
  case isFalse =>
    refine ⟨h.append rfl ?_ h.once (by simp only; omega) (.inr h.number),?_⟩
    · simp [simple,h.done]
    · refine .sending ⟨?_,h.countDown,h.done⟩ hpst rfl ?_ ?_ ?_ fun _ => ⟨?_,rfl,?_⟩
      · have htot := h.total
        rw [sent_append (s := s) rfl]
        simp only [simple]
        omega
      · simp only [simple]
        omega
      · simp only [simple,h.outstanding]
        omega
      · simp only [simple,h.outstanding]
        omega
      · simp only [simple,h.outstanding,Nat.zero_add]
      · have hnum := h.number
        simp only [simple,length_append,length_cons]
        omega

theorem Ready.simplePWQ (hlt : p.ndestinations<2^32) : Sound p (s.simplePWQ p) := by
  rw [McastSend.simplePWQ]
  split
  case isTrue hle => exact h.sendPiece hpst hlt hle
  case isFalse hgt => exact h.sendBuffer hpst (not_le.mp hgt)

end

section

variable (h : Sound p s) (hlt : p.ndestinations < 2^32)
include h hlt

theorem Sound.post (hs : s.post p = some s') : Sound p s' := by
  obtain ⟨hpst,hs⟩ := ite_none_left_eq_some.mp hs
  obtain rfl := some.inj hs
  cases h.place with
  | ready hrea =>
    have hrea' : Ready p { s with posted := true } := ⟨⟨hrea.consumed,hrea.once,hrea.toTally.sent,hrea.numbered⟩,
        ⟨hrea.total,hrea.countDown,hrea.done⟩,hrea.outstanding,hrea.participants,hrea.number,hrea.mcast⟩
    exact hrea'.simplePWQ rfl hlt
  | sending _ hyes | ended hyes => exact absurd hyes hpst

theorem Sound.work (hs : s.work p = some s') : Sound p s' := by
  obtain ⟨hwr,rfl⟩ := ite_some_none_eq_some.mp hs
  cases h.place with
  | ready hrea hpst => exact hrea.simplePWQ (hpst.trans hwr) hlt
  | sending _ _ hnot | ended _ hnot => exact absurd hwr (by simp [hnot])

theorem Sound.countedDown (hpen : Pending p s) (hpst : s.posted=true) (hwr : s.workPosted=false)
    (hout : s.outstanding ≤ max p.ndestinations 1) :
    Sound p ((mcastDone p)^[max p.ndestinations 1] s.completeOne.nextNumber) := by
  obtain hnn | hso := Nat.eq_zero_or_pos p.ndestinations
  · have hcou : s.completeOne.nextNumber.doneCountDown=0 := hpen.countDown.trans (congrArg (BitVec.ofNat 32) hnn)
    have hrou : mcastDone p s.completeOne.nextNumber =
        { s.completeOne.nextNumber with doneCountDown := -1 } := by
      have hne : ¬ (0-1 : BitVec 32)=0 := by decide
      rw [mcastDone,hcou]
      exact if_neg hne
    rw [hnn,Nat.max_eq_right (Nat.zero_le 1),iterate_one,hrou]
    refine ⟨⟨h.consumed,h.once,h.sent,h.numbered⟩,.ended hpst hwr (.inl ?_)⟩
    simp only [nextNumber,completeOne]
    omega
  · have hcns := h.consumed
    rw [hpen.done,Nat.zero_mul,Nat.add_zero] at hcns
    rw [Nat.max_eq_left hso,mcastDone_iterate hso hlt (s := s.completeOne.nextNumber) hpen.countDown]
    refine ⟨⟨?_,?_,h.sent,h.numbered⟩,.ended hpst hwr (.inr (Nat.succ_ne_zero _))⟩
    · simp only [clientDone,nextNumber,completeOne,hpen.done,hcns,Nat.zero_add,Nat.one_mul]
      rfl
    · simp only [clientDone,nextNumber,completeOne,hpen.done,Nat.zero_add,le_refl]

theorem Sound.chunkDone (hs : s.chunkDone p = some s') : Sound p s' := by
  obtain ⟨hlive,hs⟩ := ite_none_left_eq_some.mp hs
  obtain ⟨hout,hdn⟩ := not_or.mp hlive
  cases h.place with
  | ready hrea => exact absurd hrea.outstanding hout
  | ended _ _ hstop =>
    obtain hstop | hstop := hstop
    · exact absurd hstop hout
    · exact absurd hstop hdn
  | sending hpen hpst hwr hpos hle hpar hmore =>
    split at hs
    case isTrue hla =>
      simp only [completeOne] at hla
      split at hs
      case isTrue hzr =>
        obtain rfl := some.inj hs
        exact h.countedDown hlt hpen hpst hwr hle
      case isFalse hlf =>
        obtain rfl := some.inj hs
        obtain ⟨hall,hmca,hnum⟩ := hmore hlf
        refine Ready.simplePWQ ⟨⟨h.consumed,h.once,h.sent,h.numbered⟩,
          ⟨hpen.total,hpen.countDown,hpen.done⟩,?_,?_,?_,?_⟩ hpst hlt
        · simp only [nextNumber,completeOne]
          omega
        · simp only [nextNumber,completeOne]
          omega
        · simp only [nextNumber,completeOne,toNat_add]
          exact (Nat.mod_le _ _).trans hnum
        · intro hyes
          exact absurd (hmca.symm.trans hyes) (by decide)
    case isFalse hgoes =>
      obtain rfl := some.inj hs
      simp only [completeOne] at hgoes
      refine ⟨⟨h.consumed,h.once,h.sent,h.numbered⟩,
        .sending ⟨hpen.total,hpen.countDown,hpen.done⟩ hpst hwr ?_ ?_ ?_ fun hlf => ?_⟩
      · simp only [completeOne]
        omega
      · simp only [completeOne]
        omega
      · simp only [completeOne]
        omega
      · obtain ⟨hall,hmca,hnum⟩ := hmore hlf
        refine ⟨?_,hmca,hnum⟩
        simp only [completeOne]
        omega

end

theorem Sound.produced (h : Sound p s) (pwq : List (List β)) : Sound p { s with pwq := pwq } := by
  refine ⟨⟨h.consumed,h.once,h.sent,h.numbered⟩,?_⟩
  cases h.place with
  | ready hrea hpst =>
    exact .ready ⟨⟨h.consumed,h.once,h.sent,h.numbered⟩,
      ⟨hrea.total,hrea.countDown,hrea.done⟩,hrea.outstanding,hrea.participants,
      hrea.number,hrea.mcast⟩ hpst
  | sending hpen hpst hwr hpos hle hpar hmore =>
    exact .sending ⟨hpen.total,hpen.countDown,hpen.done⟩ hpst hwr hpos hle hpar hmore
  | ended hpst hwr hstop => exact .ended hpst hwr hstop

theorem sound_new (pwq : List (List β)) : Sound p (new p pwq) := by
  have htal : Tally p (new p pwq) := by
    refine ⟨?_,Nat.zero_le _,Nat.zero_le _,fun c hc => absurd hc not_mem_nil⟩
    simp [new,copied]
  exact ⟨htal,.ready ⟨htal,⟨Nat.zero_add _,rfl,rfl⟩,rfl,Nat.zero_le _,le_rfl,fun _ => ⟨rfl,rfl⟩⟩ rfl⟩

end McastSend

variable {β : Type*} {offers : List ℕ}

namespace PWQMessage

variable {m m' : PWQMessage β} {length limit : ℕ} {q : IncomingPacket β} {i : ℕ}

structure Balanced (length limit : ℕ) (m : PWQMessage β) : Prop where
  packets : ∀ q ∈ m.packetQueue, q.offset + q.size.toNat ≤ q.data.length
  load : m.load ≤ limit
  total : m.produced.length + m.totalRecvln = length

theorem size_le_load (hq : m.packetQueue[i]? = some q) : m.produced.length+q.size.toNat ≤ m.load := by
  have := single_le_sum (fun _ _ => Nat.zero_le _) q.size.toNat
    (List.mem_map_of_mem (mem_of_getElem? hq) : _ ∈ m.packetQueue.map fun p => p.size.toNat)
  rw [load]
  omega

section

variable (h : Balanced length limit m) {bytesAvail : ℤ}
include h

theorem Balanced.produce (hlim : limit≤length) {bytes : ℤ} (hq : m.packetQueue[i]? = some q)
    (hzr : 0≤bytes) (hle : bytes≤q.size) : Balanced length limit (m.produce i q bytes.toNat) := by
  have hpac := h.packets q (mem_of_getElem? hq)
  have hload := size_le_load hq
  have htot := h.total
  have hlmt := h.load
  refine ⟨fun r hr => ?_,(produce_bounds hq hzr hle).1.trans h.load,?_⟩
  · obtain hr | rfl := mem_or_eq_of_mem_set hr
    · exact h.packets r hr
    · simp only
      omega
  · simp only [PWQMessage.produce,length_append,length_take,length_drop]
    rw [if_pos (by omega)]
    omega

theorem Balanced.dequeuePacket (hs : m.dequeuePacket = some m') : Balanced length limit m' := by
  have hload := (dequeuePacket_bounds hs).1
  obtain ⟨q,-,rfl⟩ := map_eq_some_iff.mp hs
  exact ⟨fun r hr => h.packets r (mem_of_mem_tail hr),hload.trans h.load,h.total⟩

theorem Balanced.copyPacket (hlim : limit≤length) {r : Copied β} (hs : m.copyPacket i bytesAvail = some r) :
    Balanced length limit r.message := by
  rw [PWQMessage.copyPacket] at hs
  split at hs
  case isTrue =>
    obtain rfl := some.inj hs
    exact h
  case isFalse =>
    obtain ⟨q,hq,hs⟩ := bind_eq_some_iff.mp hs
    by_cases hzr : q.size=0
    · rw [if_pos hzr] at hs
      obtain rfl := some.inj hs
      exact h
    · rw [if_neg hzr] at hs
      obtain ⟨hneg,hs⟩ := ite_none_left_eq_some.mp hs
      have hcopy : (if q.size ≥ bytesAvail then bytesAvail else q.size)≤q.size := by
        split <;> omega
      generalize (if q.size ≥ bytesAvail then bytesAvail else q.size)=bytes at hs hneg hcopy
      have hpro := h.produce hlim hq (not_lt.mp hneg) hcopy
      split at hs
      case isTrue =>
        obtain ⟨m1,hdeq,rfl⟩ := map_eq_some_iff.mp hs
        have hrs := hpro.dequeuePacket hdeq
        split <;> exact hrs
      case isFalse =>
        obtain rfl := some.inj hs
        exact hpro

theorem Balanced.copyPackets (hlim : limit≤length) {waiting : Bool}
    (hs : copyPackets offers m i bytesAvail = some (m', waiting)) : Balanced length limit m' := by
  induction offers generalizing m i bytesAvail with
  | nil =>
    obtain ⟨r,hr,hm'⟩ := map_eq_some_iff.mp hs
    have hrou := h.copyPacket hlim hr
    cases r <;> obtain ⟨rfl,-⟩ := Prod.mk.inj hm' <;> exact hrou
  | cons o offers ih =>
    obtain ⟨r,hr,hrs⟩ := bind_eq_some_iff.mp hs
    have hrou := h.copyPacket hlim hr
    cases r with
    | ended m1 | waiting m1 =>
      obtain ⟨rfl,-⟩ := Prod.mk.inj (some.inj hrs)
      exact hrou
    | next m1 i1 => exact ih hrou hrs

theorem Balanced.alike (ha : Alike m m') : Balanced length limit m' := by
  refine ⟨?_,?_,?_⟩
  · rw [ha.packetQueue]
    exact h.packets
  · rw [PWQMessage.load,ha.produced,ha.packetQueue]
    exact h.load
  · rw [ha.produced,ha.totalRecvln]
    exact h.total

theorem Balanced.recvPWQ (hlim : limit≤length) {again : Bool} (hs : m.recvPWQ offers = some (m', again)) :
    Balanced length limit m' := by
  obtain ⟨m1,hali,rfl | ⟨o,rest,i,waiting,-,-,hloop⟩⟩ := recvPWQ_cases hs
  · exact h.alike hali
  · exact (h.copyPackets hlim hloop).alike hali

end

/-- A receive that is balanced, and calls back when nothing is left. -/
structure Exact (length limit : ℕ) (m : PWQMessage β) : Prop extends Balanced length limit m where
  once : m.done = if m.allocated = true then 0 else 1
  finished : m.allocated = false → m.totalRecvln = 0

theorem exact_new (length limit : ℕ) : Exact length limit (.new length : PWQMessage β) :=
  ⟨⟨fun q hq => absurd hq not_mem_nil,Nat.zero_le _,Nat.zero_add _⟩,rfl,fun h => by contradiction⟩

section

variable (h : Exact length limit m)
include h

theorem Exact.mono {limit' : ℕ} (hle : limit≤limit') : Exact length limit' m :=
  ⟨⟨h.packets,h.load.trans hle,h.total⟩,h.once,h.finished⟩

theorem Exact.produced (hdn : 0 < m.done) : m.produced.length=length := by
  have htot := h.total
  cases hall : m.allocated with
  | true =>
    have := h.once
    rw [if_pos hall] at this
    omega
  | false =>
    have := h.finished hall
    omega

theorem Exact.proceeds (hbal : Balanced length limit m') (hp : Proceeds m m') : Exact length limit m' :=
  ⟨hbal,hp.done h.once,hp.finished h.finished⟩

theorem Exact.recv (hlim : limit≤length) (hs : m.recv offers = some m') : Exact length limit m' := by
  have hprc := proceeds_recv hs
  obtain ⟨⟨m1,again⟩,hcall,rfl⟩ := map_eq_some_iff.mp hs
  have hbal := h.toBalanced.recvPWQ hlim hcall
  refine h.proceeds ?_ hprc
  simp only [cleanupMsg]
  split
  case isTrue => split <;> exact ⟨hbal.packets,hbal.load,hbal.total⟩
  case isFalse => exact hbal

theorem Exact.work (hlim : limit≤length) (hs : m.work offers = some m') : Exact length limit m' := by
  have hprc := proceeds_work hs
  obtain ⟨⟨m1,again⟩,hcall,rfl⟩ := map_eq_some_iff.mp hs
  have hbal := h.toBalanced.recvPWQ hlim hcall
  refine h.proceeds ?_ hprc
  simp only [cleanupMsg]
  split
  case isTrue => split <;> exact ⟨hbal.packets,hbal.load,hbal.total⟩
  case isFalse => exact ⟨hbal.packets,hbal.load,hbal.total⟩

theorem Exact.enqueuePacket (chunk : ℕ) (data : List β) (arrived : Bool) :
    Exact length (limit+data.length) (m.enqueuePacket chunk data arrived) := by
  refine ⟨⟨fun q hq => ?_,?_,h.total⟩,h.once,h.finished⟩
  · obtain hq | hq := mem_append.mp hq
    · exact h.packets q hq
    · rw [mem_singleton.mp hq]
      simpa using toInt_le data.length
  · rw [enqueuePacket_load]
    exact add_le_add h.load (toInt_le _)

theorem Exact.receive {p : Payload β} (hlim : limit+p.size≤length) {seqNo : BitVec 32}
    (hs : m.receive seqNo p offers = some m') : Exact length (limit+p.size) m' := by
  cases p with
  | data bytes => exact (h.enqueuePacket _ _ _).recv hlim hs
  | recv buffer =>
    obtain rfl := some.inj hs
    exact h.enqueuePacket _ _ _
  | neither => exact h.recv hlim hs

theorem Exact.arriveData {chunk : ℕ} {data : List β}
    (hlen : ∀ q ∈ m.packetQueue, q.chunk=chunk → q.data.length=data.length)
    (hs : m.arriveData chunk data = some m') : Exact length limit m' := by
  have hload := (arriveData_load hs).1
  obtain ⟨-,rfl⟩ := ite_some_none_eq_some.mp hs
  refine ⟨⟨fun q hq => ?_,hload.trans_le h.load,h.total⟩,h.once,h.finished⟩
  obtain ⟨r,hr,rfl⟩ := List.mem_map.mp hq
  have hpac := h.packets r hr
  split
  case isTrue heq => exact hpac.trans (hlen r hr heq).le
  case isFalse => exact hpac

end

end PWQMessage

end PAMI.Pwq
