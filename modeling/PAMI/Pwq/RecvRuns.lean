import PAMI.Pwq.RecvPWQ

namespace PAMI.Pwq

open PAMI.Math List Option

variable {β : Type*} {chunks : List (List β)}

namespace PWQMessage

variable {m m' : PWQMessage β} {p : IncomingPacket β} {q : List (IncomingPacket β)} {offers : List ℕ}

theorem InOrder.total_pos (h : InOrder chunks m) (hq : m.packetQueue ≠ []) : m.totalRecvln≠0 := by
  obtain ⟨p,q,hq⟩ := exists_cons_of_ne_nil hq
  have hpos := (h.holds p (by simp [hq])).pos
  have hle := h.size_le hq
  omega

theorem Within.head {o : ℕ} (hw : m.Within (o :: offers)) (ho : 0<o) (hq : m.packetQueue = p :: q) :
    p.arrived=true := by
  obtain hall | hsum := hw.1
  · exact hall p (by simp [hq])
  · by_contra harr
    rw [hq,PWQMessage.ready,if_neg harr,sum_cons] at hsum
    omega

theorem Within.next {o c : ℕ} (hw : m.Within (o :: offers)) (hc : c≤o) (h : Copying chunks m m' c) :
    m'.Within offers := by
  refine ⟨?_,fun o ho => hw.2 o (by simp [ho])⟩
  obtain hall | hsum := hw.1
  · exact .inl (h.arrived hall)
  · have := h.ready
    rw [sum_cons] at hsum
    exact .inr (by omega)

theorem InOrder.copyPacket (h : InOrder chunks m) (hq : m.packetQueue = p :: q)
    (harr : p.arrived=true) {o : ℕ} (ho : 0<o) :
    ∃ m' c, Copying chunks m m' c ∧ 0 < c ∧ c≤o ∧
      ((m.copyPacket 0 o = some (.next m' 0) ∧ (m'.packetQueue = [] → m'.totalRecvln=0)) ∨
        (m.copyPacket 0 o = some (.waiting m') ∧ m'.packetQueue = [])) := by
  have hpos := (h.holds p (by simp [hq])).pos
  have hloop : ¬ ((o : ℤ)=0 ∨ m.totalRecvln=0) := by
    have := h.total_pos (by simp [hq])
    omega
  have hsi : ¬ p.size=0 := by omega
  have hhe : m.packetQueue[0]? = some p := by simp [hq]
  by_cases hlt : (o : ℤ)<p.size
  · have hcpy := h.copy_part hq harr hlt
    refine ⟨_,o,hcpy,ho,le_rfl,.inl ⟨?_,fun hnil => by simp [produce,hq] at hnil⟩⟩
    simp only [PWQMessage.copyPacket,if_neg hloop,hhe,bind_some,if_neg hsi,
      if_pos (show p.size ≥ o by omega),if_neg (show ¬ (o : ℤ)<0 by omega),
      if_neg (show ¬ p.size-(o : ℤ)=0 by omega),Int.toNat_natCast]
  · have hcopy : (if p.size ≥ o then (o : ℤ) else p.size)=p.size := by
      split <;> omega
    obtain ⟨m',hdeq,hque,hcpy⟩ := h.copy_rest (c := p.size.toNat) hq harr (Int.toNat_of_nonneg (by omega))
    refine ⟨m',p.size.toNat,hcpy,by omega,by omega,?_⟩
    have hrou : m.copyPacket 0 o = some (if m'.packetQueue = [] ∧ m'.totalRecvln≠0 then .waiting m'
        else .next m' 0) := by
      simp only [PWQMessage.copyPacket,if_neg hloop,hhe,bind_some,if_neg hsi,hcopy,
        if_neg (show ¬ p.size<0 by omega),sub_self,if_true,hdeq,map_some]
    by_cases hwait : m'.packetQueue = [] ∧ m'.totalRecvln≠0
    · exact .inr ⟨by rw [hrou,if_pos hwait],hwait.1⟩
    · refine .inl ⟨by rw [hrou,if_neg hwait],fun hnil => ?_⟩
      by_contra hne
      exact hwait ⟨hnil,hne⟩

/-- What a number of rounds does. -/
structure Copies (chunks : List (List β)) (m m' : PWQMessage β) : Prop where
  inOrder : InOrder chunks m'
  kept : Kept m m'
  produced : m.produced.length ≤ m'.produced.length
  arrived : (∀ p ∈ m.packetQueue, p.arrived) → ∀ p ∈ m'.packetQueue, p.arrived

theorem Copies.refl (h : InOrder chunks m) : Copies chunks m m := ⟨h,.refl m,le_rfl,id⟩

theorem Copies.trans {m'' : PWQMessage β} (h : Copies chunks m m') (h' : Copies chunks m' m'') :
    Copies chunks m m'' :=
  ⟨h'.inOrder,h.kept.trans h'.kept,h.produced.trans h'.produced,fun hall => h'.arrived (h.arrived hall)⟩

section

variable {o : ℕ} (h : InOrder chunks m) (hw : m.Within (o :: offers))
  (hpla : m.packetQueue = [] → m.totalRecvln = 0)
include h hw hpla

theorem InOrder.round : ∃ r m', m.copyPacket 0 (toInt o) = some r ∧ Copies chunks m m' ∧
      (0<o → m.packetQueue ≠ [] → m.produced.length < m'.produced.length) ∧
      (r = .ended m' ∨ (r = .waiting m' ∧ m'.packetQueue = []) ∨
        (r = .next m' 0 ∧ m'.Within offers ∧ (m'.packetQueue = [] → m'.totalRecvln=0))) := by
  rw [toInt_of_lt (hw.2 o (by simp))]
  by_cases hend : o=0 ∨ m.packetQueue = []
  · have hcond : (o : ℤ)=0 ∨ m.totalRecvln=0 := hend.imp (by simp) hpla
    refine ⟨_,m,if_pos hcond,.refl h,fun ho hne => ?_,.inl rfl⟩
    exact (hend.elim (by omega) hne).elim
  · obtain ⟨ho,hne⟩ := not_or.mp hend
    obtain ⟨p,q,hq⟩ := exists_cons_of_ne_nil hne
    obtain ⟨m',c,hcopy,hc,hco,hrou⟩ := h.copyPacket hq (hw.head (by omega) hq) (Nat.pos_of_ne_zero ho)
    have hlen := hcopy.produced
    have hcop : Copies chunks m m' := ⟨hcopy.inOrder,hcopy.kept,by omega,hcopy.arrived⟩
    obtain ⟨hrou,hpla'⟩ | ⟨hrou,hnil⟩ := hrou
    · exact ⟨_,m',hrou,hcop,fun _ _ => by omega,.inr (.inr ⟨rfl,hw.next hco hcopy,hpla'⟩)⟩
    · exact ⟨_,m',hrou,hcop,fun _ _ => by omega,.inr (.inl ⟨rfl,hnil⟩)⟩

theorem InOrder.copyPackets :
    ∃ m' waiting, copyPackets offers m 0 (toInt o) = some (m', waiting) ∧ Copies chunks m m' ∧
      (0<o → m.packetQueue ≠ [] → m.produced.length < m'.produced.length) ∧
      (waiting=true → m'.packetQueue = []) := by
  obtain ⟨r,m1,hrou,hcop,hgro,hnx⟩ := h.round hw hpla
  induction offers generalizing m o r m1 with
  | nil =>
    obtain rfl | ⟨rfl,hnil⟩ | ⟨rfl,-⟩ := hnx
    · exact ⟨m1,false,by rw [PWQMessage.copyPackets,hrou]; rfl,hcop,hgro,by simp⟩
    · exact ⟨m1,true,by rw [PWQMessage.copyPackets,hrou]; rfl,hcop,hgro,fun _ => hnil⟩
    · exact ⟨m1,false,by rw [PWQMessage.copyPackets,hrou]; rfl,hcop,hgro,by simp⟩
  | cons o' offers ih =>
    obtain rfl | ⟨rfl,hnil⟩ | ⟨rfl,hw1,hpla1⟩ := hnx
    · exact ⟨m1,false,by rw [PWQMessage.copyPackets,hrou]; rfl,hcop,hgro,by simp⟩
    · exact ⟨m1,true,by rw [PWQMessage.copyPackets,hrou]; rfl,hcop,hgro,fun _ => hnil⟩
    · obtain ⟨r2,m2,hrou2,hcop2,hgro2,hnx2⟩ := hcop.inOrder.round hw1 hpla1
      obtain ⟨m',waiting,hloop,hrs,-,hwait⟩ := ih hcop.inOrder hw1 hpla1 r2 m2 hrou2 hcop2 hgro2 hnx2
      have hle := hrs.produced
      refine ⟨m',waiting,?_,hcop.trans hrs,fun ho hne => ?_,hwait⟩
      · rw [PWQMessage.copyPackets,hrou,bind_some]
        exact hloop
      · exact (hgro ho hne).trans_le hle

end

/-- What a call of `recvPWQ` does, where the work is on the device exactly if it is posted. -/
structure Received (chunks : List (List β)) (offers : List ℕ) (m m' : PWQMessage β) (again : Bool) :
    Prop where
  inOrder : InOrder chunks m'
  allocated : m'.allocated = m.allocated
  enqueued : m'.enqueued = m.enqueued
  done : m'.done = m.done
  produced : m.produced.length ≤ m'.produced.length
  progress : 0 < offers.headD 0 → m.packetQueue ≠ [] → m.produced.length < m'.produced.length
  posted : m'.totalRecvln ≠ 0 → m'.workPosted = m'.onDevice
  again : m'.totalRecvln ≠ 0 → m.onDevice = true → again = true ∧ m'.onDevice = true
  live : m'.totalRecvln ≠ 0 → m'.onDevice = true ∨ m'.packetQueue = []

section

variable (h : InOrder chunks m)
include h

theorem Copies.total_le (hcop : Copies chunks m m') : m'.totalRecvln ≤ m.totalRecvln := by
  have htot := h.total
  have htot' := hcop.inOrder.total
  have hle := hcop.produced
  omega

theorem Copies.postWork (hcop : Copies chunks m m')
    (hpst : m.totalRecvln≠0 → m.workPosted=m.onDevice)
    (hgro : 0 < offers.headD 0 → m.packetQueue ≠ [] → m.produced.length < m'.produced.length) :
    Received chunks offers m m'.postWork.1 m'.postWork.2 := by
  have hle := hcop.total_le h
  have hkp := hcop.kept
  have hsm : m'.totalRecvln≠0 → m'.workPosted=m'.onDevice := by
    intro hne
    rw [hkp.workPosted,hkp.onDevice]
    exact hpst (by omega)
  rw [PWQMessage.postWork]
  by_cases hwr : m'.workPosted=true
  · rw [if_pos hwr]
    exact ⟨hcop.inOrder,hkp.allocated,hkp.enqueued,hkp.done,hcop.produced,hgro,hsm,
      fun hne _ => ⟨rfl,(hsm hne).symm.trans hwr⟩,fun hne => .inl ((hsm hne).symm.trans hwr)⟩
  · rw [if_neg hwr]
    have hoff : m'.totalRecvln≠0 → m.onDevice≠true := by
      intro hne hon
      rw [← hkp.onDevice,← hsm hne] at hon
      exact hwr hon
    by_cases htot : m'.totalRecvln≠0
    · rw [if_pos htot]
      exact ⟨hcop.inOrder.flags true m'.allocated true m'.done,hkp.allocated,hkp.enqueued,
        hkp.done,hcop.produced,hgro,fun _ => rfl,fun hne hon => absurd hon (hoff hne),
        fun _ => .inl rfl⟩
    · rw [if_neg htot]
      exact ⟨hcop.inOrder,hkp.allocated,hkp.enqueued,hkp.done,hcop.produced,hgro,
        fun hne => absurd hne htot,fun hne => absurd hne htot,fun hne => absurd hne htot⟩

theorem InOrder.findIdx_eq (hq : m.packetQueue = p :: q) :
    m.packetQueue.findIdx? (fun p => p.seqNo=m.seqNo) = some 0 := by
  have hseq : p.seqNo=m.seqNo := by
    rw [h.seqNo,← h.chunk_eq hq]
    exact (h.holds p (by simp [hq])).seqNo
  simp [hq,List.findIdx?_cons,hseq]

theorem InOrder.recvPWQ_eq (hq : m.packetQueue = p :: q) {o : ℕ} (hpos : 0<o) (hlt : o<2^31)
    {waiting : Bool} (hloop : PWQMessage.copyPackets offers m 0 (toInt o) = some (m', waiting)) :
    m.recvPWQ (o :: offers) = some (if waiting=true then (m', m'.workPosted)
      else if m'.totalRecvln=0 then ({ m' with workPosted := false }, false) else m'.postWork) := by
  have hofr : toInt o=o := toInt_of_lt hlt
  have hhe : m.packetQueue[0]? = some p := by simp [hq]
  have hass : 0≤p.size ∧ p.size ≤ m.totalRecvln := ⟨(h.holds p (by simp [hq])).pos.le,h.size_le hq⟩
  rw [hofr] at hloop
  simp only [PWQMessage.recvPWQ,headD_cons,hofr,if_pos (show (0 : ℤ)<o by omega),
    h.findIdx_eq hq,hhe,bind_some,if_pos hass,tail_cons,hloop,map_some]
  cases waiting with
  | true | false => rfl

theorem InOrder.recvPWQ (hw : m.Within offers) (hpst : m.totalRecvln≠0 → m.workPosted=m.onDevice) :
    ∃ m' again, m.recvPWQ offers = some (m', again) ∧ Received chunks offers m m' again := by
  have hstay : Copies chunks m m := .refl h
  have hofr : toInt (offers.headD 0) = offers.headD 0 := by
    apply toInt_of_lt
    cases offers with
    | nil => simp
    | cons o offers => exact hw.2 o (by simp)
  by_cases hpos : 0<offers.headD 0
  · cases hq : m.packetQueue with
    | nil =>
      refine ⟨_,_,?_,hstay.postWork h hpst fun _ hne => absurd hq hne⟩
      simp only [PWQMessage.recvPWQ,hofr,if_pos (show (0 : ℤ)<offers.headD 0 by omega),hq,List.findIdx?_nil]
    | cons p q =>
      obtain ⟨o,rest,rfl⟩ : ∃ o rest, offers=o :: rest := exists_cons_of_ne_nil fun hnil => by simp [hnil] at hpos
      obtain ⟨m',waiting,hloop,hcop,hgro,hwait⟩ := h.copyPackets hw fun hnil => by simp [hq] at hnil
      have hcall := h.recvPWQ_eq hq hpos (hw.2 o (by simp)) hloop
      have hle := hcop.total_le h
      have hkp := hcop.kept
      have hino := hcop.inOrder
      have hsm : m'.totalRecvln≠0 → m'.workPosted=m'.onDevice := by
        intro hne
        rw [hkp.workPosted,hkp.onDevice]
        exact hpst (by omega)
      refine ⟨_,_,hcall,?_⟩
      cases waiting with
      | true =>
        exact ⟨hino,hkp.allocated,hkp.enqueued,hkp.done,hcop.produced,hgro,hsm,
          fun hne hon => ⟨(hsm hne).trans (hkp.onDevice.trans hon),hkp.onDevice.trans hon⟩,
          fun _ => .inr (hwait rfl)⟩
      | false =>
        by_cases htot : m'.totalRecvln=0
        · simp only [if_pos htot]
          exact ⟨hino.flags false m'.allocated m'.onDevice m'.done,hkp.allocated,hkp.enqueued,
            hkp.done,hcop.produced,hgro,fun hne => absurd htot hne,
            fun hne => absurd htot hne,fun hne => absurd htot hne⟩
        · simp only [if_neg htot]
          exact hcop.postWork h hpst hgro
  · refine ⟨_,_,?_,hstay.postWork h hpst fun ho => absurd ho hpos⟩
    simp only [PWQMessage.recvPWQ,hofr,if_neg (show ¬ (0 : ℤ)<offers.headD 0 by omega)]

end

variable {m m' : PWQMessage β} {offers : List ℕ} {arrived : Bool} {i : ℕ}

/-- What a state of a message says: the bytes produced are the beginning of the chunks, each packet is freed in its turn, the
completion runs once, after the last byte, and until then something is still to come. -/
structure Reassembled (chunks : List (List β)) (m : PWQMessage β) : Prop where
  content : m.produced <+: chunks.flatten
  freed : m.freed = List.range m.freed.length
  after : (chunks.take m.freed.length).flatten <+: m.produced
  once : m.done ≤ 1
  done : chunks.flatten ≠ [] → (m.done = 1 ↔ m.produced = chunks.flatten)
  all : m.done = 1 → m.freed = m.enqueued
  live : m.produced ≠ chunks.flatten → m.onDevice = true ∨ (∃ p ∈ m.packetQueue, p.arrived = false) ∨
    (m.packetQueue = [] ∧ m.enqueued.length < chunks.length)
  progress : ∀ offers, m.Within offers → ∃ r, m.recvPWQ offers = some r ∧
    (0 < offers.headD 0 → m.packetQueue ≠ [] → m.produced.length < r.1.produced.length)

/-- The work is on the device exactly if it is posted, as long as bytes are to come, and the message is
cleaned up with its last byte. -/
structure Flags (chunks : List (List β)) (m : PWQMessage β) : Prop where
  inOrder : InOrder chunks m
  posted : m.totalRecvln ≠ 0 → m.workPosted = m.onDevice
  completed : m.done = if m.allocated = true then 0 else 1
  cleaned : m.totalRecvln = 0 → chunks.flatten = [] ∨ m.allocated = false
  unfinished : m.allocated = false → m.totalRecvln = 0

structure Reassembling (chunks : List (List β)) (m : PWQMessage β) : Prop where
  flags : Flags chunks m
  live : m.totalRecvln ≠ 0 → m.onDevice = true ∨ (∃ p ∈ m.packetQueue, p.arrived = false) ∨ m.packetQueue = []

section

variable (h : InOrder chunks m) {again : Bool}
include h

theorem InOrder.isPrefix : m.produced <+: chunks.flatten := by
  refine List.IsPrefix.trans ?_ (flatten_take_isPrefix chunks (m.freed.length+1))
  rw [h.produced,flatten_take_succ]
  exact (prefix_append_right_inj _).mpr ( take_prefix _ _)

theorem InOrder.produced_all : m.produced=chunks.flatten ↔ m.totalRecvln=0 := by
  have htot := h.total
  constructor
  · intro hall
    rw [hall] at htot
    omega
  · intro hzr
    exact h.isPrefix.eq_of_length (by omega)

theorem InOrder.enqueued_lt (hq : m.packetQueue = []) (hne : m.totalRecvln≠0) :
    m.enqueued.length < chunks.length := by
  by_contra hge
  have hcou := h.count
  rw [hq,length_nil,add_zero] at hcou
  apply hne
  rw [← h.produced_all,h.produced,hq,headOffset,take_zero,append_nil,take_of_length_le (by omega)]

theorem InOrder.empty (hzr : m.totalRecvln=0) : m.packetQueue = [] := by
  by_contra hne
  exact h.total_pos hne hzr

omit h in
theorem Reassembling.reassembled (h : Reassembling chunks m) : Reassembled chunks m := by
  have hino := h.flags.inOrder
  have hdn : m.done=1 ↔ m.allocated=false := by
    rw [h.flags.completed]
    cases m.allocated <;> simp
  refine ⟨hino.isPrefix,hino.freed,?_,?_,fun hne => ?_,fun hd => ?_,fun hne => ?_,fun offers hw => ?_⟩
  · rw [hino.produced]
    exact prefix_append _ _
  · rw [h.flags.completed]
    split <;> omega
  · rw [hdn,hino.produced_all]
    exact ⟨h.flags.unfinished,fun hzr => (h.flags.cleaned hzr).resolve_left hne⟩
  · have hnil := hino.empty (h.flags.unfinished (hdn.mp hd))
    have hcou := hino.count
    rw [hnil,length_nil,add_zero] at hcou
    rw [hino.freed,hino.enqueued,hcou]
  · have htot := mt hino.produced_all.mpr hne
    exact (h.live htot).imp_right (Or.imp_right fun hnil => ⟨hnil,hino.enqueued_lt hnil htot⟩)
  · obtain ⟨m',again,hcall,hrec⟩ := hino.recvPWQ hw h.flags.posted
    exact ⟨(m', again),hcall,hrec.progress⟩

theorem Received.total_le (hrec : Received chunks offers m m' again) :
    m'.totalRecvln ≤ m.totalRecvln := by
  have htot := h.total
  have htot' := hrec.inOrder.total
  have hle := hrec.produced
  omega

omit h in
theorem Flags.received (h : Flags chunks m) (hrec : Received chunks offers m m' again)
    (hne : m'.totalRecvln≠0) : Reassembling chunks m' := by
  have hle := hrec.total_le h.inOrder
  refine ⟨⟨hrec.inOrder,hrec.posted,?_,fun hzr => absurd hzr hne,fun hall => ?_⟩,
    fun _ => (hrec.live hne).imp_right .inr⟩
  · rw [hrec.done,hrec.allocated,h.completed]
  · have := h.unfinished (hrec.allocated.symm.trans hall)
    omega

omit h in
theorem Flags.finished (h : Flags chunks m) (hrec : Received chunks offers m m' again)
    (hzr : m'.totalRecvln=0) (onDevice : Bool) :
    Reassembling chunks { m'.cleanupMsg with onDevice := onDevice } := by
  have hcom := h.completed
  rw [← hrec.done,← hrec.allocated] at hcom
  rw [PWQMessage.cleanupMsg]
  split
  case isTrue hall =>
    rw [if_pos hall] at hcom
    exact ⟨⟨hrec.inOrder.flags _ _ _ _,fun hne => absurd hzr hne,by simp [hcom],
      fun _ => .inr rfl,fun _ => hzr⟩,fun hne => absurd hzr hne⟩
  case isFalse hall =>
    exact ⟨⟨hrec.inOrder.flags _ _ _ _,fun hne => absurd hzr hne,hcom,
      fun _ => .inr (by simpa using hall),fun _ => hzr⟩,fun hne => absurd hzr hne⟩

omit h in
theorem Flags.recv (h : Flags chunks m) (hw : m.Within offers) (hs : m.recv offers = some m') :
    Reassembling chunks m' := by
  obtain ⟨m1,again,hcall,hrec⟩ := h.inOrder.recvPWQ hw h.posted
  rw [PWQMessage.recv,hcall,map_some,some_inj] at hs
  obtain rfl := hs
  split
  case isTrue hzr => exact h.finished hrec hzr _
  case isFalse hne => exact h.received hrec hne

omit h in
theorem Flags.work (h : Flags chunks m) (hon : m.onDevice=true) (hw : m.Within offers)
    (hs : m.work offers = some m') : Reassembling chunks m' := by
  obtain ⟨m1,again,hcall,hrec⟩ := h.inOrder.recvPWQ hw h.posted
  rw [PWQMessage.work,hcall,map_some,some_inj] at hs
  obtain rfl := hs
  split
  case isTrue hzr => exact h.finished hrec hzr _
  case isFalse hne =>
    obtain ⟨haga,hdev⟩ := hrec.again hne hon
    have hsm : { m1 with onDevice := again } = m1 := by rw [haga,← hdev]
    simp only [hsm]
    exact h.received hrec hne

theorem InOrder.enqueuePacket {data buffer : List β} (hseq : InSequence chunks m i)
    (hi : chunks[i]? = some data) (hlen : buffer.length=data.length) (harr : arrived=true → buffer=data) :
    InOrder chunks (m.enqueuePacket i buffer arrived) := by
  obtain ⟨rfl,hsi⟩ := hseq
  obtain ⟨hne,hlt⟩ := hsi data hi
  have hget : chunks.getD m.enqueued.length []=data := by rw [getD_eq_getElem?_getD,hi,getD_some]
  have hpos : 0<data.length := length_pos_of_ne_nil hne
  have hint : toInt buffer.length=buffer.length := toInt_of_lt (hlen ▸ hlt)
  refine ⟨?_,?_,h.freed,?_,?_,h.seqNo,?_,?_,?_,h.total⟩
  · simp only [PWQMessage.enqueuePacket,length_append,length_singleton,range_succ]
    rw [← h.enqueued]
  · have hexi := (List.getElem?_eq_some_iff.mp hi).1
    simpa [PWQMessage.enqueuePacket] using Nat.succ_le_of_lt hexi
  · simp only [PWQMessage.enqueuePacket,length_append,length_singleton,← add_assoc]
    rw [h.count]
  · simp only [PWQMessage.enqueuePacket,map_append,map_cons,map_nil,length_append,length_singleton]
    rw [range'_concat,← h.waiting,one_mul,h.count]
  · intro p hp
    obtain hp | hp := mem_append.mp hp
    · exact h.holds p hp
    · obtain rfl := mem_singleton.mp hp
      refine ⟨rfl,by rw [hget,hlen],fun hall => (harr hall).trans hget.symm,?_,?_⟩
      · simp only [hint]
        omega
      · simp only [hint]
        omega
  · intro p hp
    cases hq : m.packetQueue with
    | nil => simp [PWQMessage.enqueuePacket,hq] at hp
    | cons r q =>
      simp only [PWQMessage.enqueuePacket,hq,cons_append,tail_cons] at hp
      obtain hp | hp := mem_append.mp hp
      · exact h.untouched p (by simpa [hq] using hp)
      · obtain rfl := mem_singleton.mp hp
        rfl
  · refine h.produced.trans ?_
    cases hq : m.packetQueue with
    | nil | cons r q => simp [PWQMessage.enqueuePacket,hq,headOffset]

theorem InOrder.arriveData {data : List β} (hi : chunks[i]? = some data) (hs : m.arriveData i data = some m') :
    InOrder chunks m' := by
  have hget : chunks.getD i []=data := by rw [getD_eq_getElem?_getD,hi,getD_some]
  obtain ⟨-,rfl⟩ := ite_some_none_eq_some.mp hs
  refine ⟨h.enqueued,h.exist,h.freed,by simpa using h.count,?_,h.seqNo,?_,?_,?_,h.total⟩
  · rw [length_map,← h.waiting,List.map_map]
    apply map_congr_left
    intro p _
    by_cases hchu : p.chunk=i <;> simp [hchu]
  · intro p hp
    obtain ⟨r,hr,rfl⟩ := List.mem_map.mp hp
    have hhol := h.holds r hr
    by_cases hchu : r.chunk=i
    · have hlen : r.data.length=data.length := by rw [hhol.length,hchu,hget]
      simp only [if_pos hchu]
      exact ⟨hhol.seqNo,by rw [hchu,hget],fun _ => by rw [hchu,hget],
        by rw [← hlen]; exact hhol.size,hhol.pos⟩
    · simp only [if_neg hchu]
      exact hhol
  · intro p hp
    rw [← map_tail] at hp
    obtain ⟨r,hr,rfl⟩ := List.mem_map.mp hp
    have hoft := h.untouched r hr
    by_cases hchu : r.chunk=i <;> simp [hchu,hoft]
  · refine h.produced.trans ?_
    cases m.packetQueue with
    | nil => rfl
    | cons r q => by_cases hchu : r.chunk=i <;> simp [headOffset,hchu]

end

theorem Flags.enqueuePacket (h : Flags chunks m) {data buffer : List β} (hseq : InSequence chunks m i)
    (hi : chunks[i]? = some data) (hlen : buffer.length=data.length) (harr : arrived=true → buffer=data) :
    Flags chunks (m.enqueuePacket i buffer arrived) :=
  ⟨h.inOrder.enqueuePacket hseq hi hlen harr,h.posted,h.completed,h.cleaned,h.unfinished⟩

theorem Reassembling.step {e : RecvEvent β} (h : Reassembling chunks m) (hcle : Clean chunks m e)
    (hs : m.step chunks e = some m') : Reassembling chunks m' := by
  cases e with
  | deliver i offers =>
    obtain ⟨-,hs⟩ := ite_none_left_eq_some.mp hs
    obtain ⟨data,hi,hs⟩ := bind_eq_some_iff.mp hs
    exact (h.flags.enqueuePacket hcle.1 hi rfl fun _ => rfl).recv (hcle.2 data hi) hs
  | announce i buffer =>
    obtain ⟨-,hs⟩ := ite_none_left_eq_some.mp hs
    obtain ⟨data,hi,hs⟩ := bind_eq_some_iff.mp hs
    obtain ⟨hlen,rfl⟩ := ite_some_none_eq_some.mp hs
    exact ⟨h.flags.enqueuePacket hcle hi hlen (by simp),fun _ =>
      .inr (.inl ⟨_,mem_append_right _ (mem_singleton_self _),rfl⟩)⟩
  | arrive i offers =>
    obtain ⟨data,hi,hs⟩ := bind_eq_some_iff.mp hs
    obtain ⟨m1,hare,hs⟩ := bind_eq_some_iff.mp hs
    have hino := h.flags.inOrder.arriveData hi hare
    have hwit := hcle data hi m1 hare
    obtain ⟨-,rfl⟩ := ite_some_none_eq_some.mp hare
    have hfla : Flags chunks _ := ⟨hino,h.flags.posted,h.flags.completed,h.flags.cleaned,h.flags.unfinished⟩
    exact hfla.recv hwit hs
  | work offers =>
    obtain ⟨hon,hs⟩ := ite_none_right_eq_some.mp hs
    exact h.flags.work hon hcle hs

theorem reassembling_new (chunks : List (List β)) :
    Reassembling chunks (new chunks.flatten.length) := by
  refine ⟨⟨⟨rfl,Nat.zero_le _,rfl,rfl,rfl,rfl,by simp [new],by simp [new],by simp [new,headOffset],
    rfl⟩,fun _ => rfl,rfl,fun hzr => .inl (eq_nil_of_length_eq_zero hzr),by simp [new]⟩,
    fun _ => .inr (.inr rfl)⟩

/-- The chunks are put together in all runs in which they come in sequence, none is empty, and the receive
queue offers no more space than there is data for. -/
theorem reassembled_of_clean (h : Run (step chunks) (Clean chunks) (new chunks.flatten.length) m) :
    Reassembled chunks m :=
  (h.invariant (reassembling_new chunks) fun _ _ _ hm hcle hs => hm.step hcle hs).reassembled

instance (m : PWQMessage β) (offers : List ℕ) : Decidable (m.Within offers) := inferInstanceAs (Decidable (_ ∧ _))

instance (m : PWQMessage β) (e : RecvEvent β) [DecidableEq β] : Decidable (Clean chunks m e) :=
  match e with
  | .deliver i offers =>
    inferInstanceAs (Decidable ((i = m.enqueued.length ∧ ∀ data ∈ chunks[i]?, data ≠ [] ∧ data.length < 2^31)
      ∧ ∀ data ∈ chunks[i]?, (m.enqueuePacket i data true).Within offers))
  | .announce i _ =>
    inferInstanceAs (Decidable (i = m.enqueued.length ∧ ∀ data ∈ chunks[i]?, data ≠ [] ∧ data.length < 2^31))
  | .arrive i offers =>
    inferInstanceAs (Decidable (∀ data ∈ chunks[i]?, ∀ m' ∈ m.arriveData i data, m'.Within offers))
  | .work offers => inferInstanceAs (Decidable (m.Within offers))

theorem two_chunks_reassembled : ∃ m, m.done = 1 ∧ m.freed = [0, 1] ∧ m.produced = [10, 11, 12] ∧
    Reassembled [[10, 11], [12]] m :=
  ⟨_,rfl,rfl,rfl,reassembled_of_clean (Run.refl.checked
    [.deliver 0 [1],.announce 1 [99],.work [1],.work [],.arrive 1 [],.work [5]] rfl)⟩

/-- The second chunk comes first: its packet is freed in place of that of the first chunk. -/
theorem second_chunk_first : ∃ m, execEvents (step [[1], [2]]) [.deliver 1 [9], .deliver 0 [9, 9]]
    (new [[1], [2]].flatten.length) = some m ∧ m.produced = [1] ∧ ¬ Reassembled [[1], [2]] m := by
  refine ⟨_,rfl,rfl,fun h => ?_⟩
  exact absurd h.freed (by decide)

end PWQMessage

end PAMI.Pwq
