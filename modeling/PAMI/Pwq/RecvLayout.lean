import PAMI.Pwq.RecvRuns
import PAMI.Pwq.Transfer

namespace PAMI.Pwq

open PAMI.Math List Option Bool

variable {β : Type*} {chunks : List (List β)} {layout : List ℕ} {offers : List ℕ} {m m' : PWQMessage β}

theorem availableAt_pos {n : ℕ} (h : n<layout.sum) : 0 < availableAt layout n := by
  induction layout generalizing n with
  | nil => simp at h
  | cons b layout ih =>
    rw [sum_cons] at h
    rw [availableAt]
    split
    · omega
    · exact ih (by omega)

theorem availableAt_lt {n size : ℕ} (hsi : 0 < size) (h : ∀ b ∈ layout, b < size) :
    availableAt layout n < size := by
  induction layout generalizing n with
  | nil => exact hsi
  | cons b layout ih =>
    have hb := h b mem_cons_self
    rw [availableAt]
    split
    · omega
    · exact ih fun b hb => h b (mem_cons_of_mem _ hb)

theorem answered_lt {i : ℕ} (hlay : ∀ b ∈ layout, b<2^31) (h : answered layout offers m i = true) :
    ∀ o ∈ offers, o<2^31 := by
  induction offers generalizing m i with
  | nil => simp
  | cons o offers ih =>
    rw [answered,and_eq_true,beq_iff_eq] at h
    obtain ⟨rfl,hrs⟩ := h
    intro o' ho'
    obtain rfl | ho' := mem_cons.mp ho'
    · exact availableAt_lt (by omega) hlay
    · split at hrs
      case h_1 m1 i1 _ => exact ih hrs o' ho'
      case h_2 =>
        rw [List.isEmpty_iff.mp hrs] at ho'
        exact absurd ho' not_mem_nil

namespace PWQMessage

structure Open (layout : List ℕ) (chunks : List (List β)) (m : PWQMessage β) : Prop where
  inOrder : InOrder chunks m
  arrived : ∀ p ∈ m.packetQueue, p.arrived = true
  place : m.packetQueue = [] → m.totalRecvln = 0

theorem Open.within (h : Open layout chunks m) (hlt : ∀ o ∈ offers, o<2^31) : m.Within offers :=
  ⟨.inl h.arrived,hlt⟩

theorem InOrder.available_pos (h : InOrder chunks m) (hsum : layout.sum=chunks.flatten.length)
    (hne : m.totalRecvln≠0) : 0 < availableAt layout m.produced.length := by
  have htot := h.total
  exact availableAt_pos (by omega)

theorem InOrder.total_eq_zero (h : InOrder chunks m) (hsum : layout.sum=chunks.flatten.length)
    (hzr : availableAt layout m.produced.length = 0) : m.totalRecvln=0 := by
  by_contra hne
  have := h.available_pos hsum hne
  omega

section

variable (h : Open layout chunks m) (hsum : layout.sum = chunks.flatten.length)
  (hlay : ∀ b ∈ layout, b < 2^31)
include h hsum hlay

theorem Open.round : (m.totalRecvln=0 ∧
      m.copyPacket 0 (toInt (availableAt layout m.produced.length)) = some (.ended m)) ∨
    (m.totalRecvln≠0 ∧ ∃ m', Copies chunks m m' ∧ m'.totalRecvln < m.totalRecvln ∧
      ((m.copyPacket 0 (toInt (availableAt layout m.produced.length)) = some (.waiting m') ∧ m'.packetQueue = []) ∨
        (m.copyPacket 0 (toInt (availableAt layout m.produced.length)) = some (.next m' 0) ∧
          Open layout chunks m'))) := by
  by_cases htot : m.totalRecvln=0
  · exact .inl ⟨htot,if_pos (.inr htot)⟩
  · obtain ⟨p,q,hq⟩ := exists_cons_of_ne_nil (mt h.place htot)
    obtain ⟨m',c,hcopy,hc,-,hrou⟩ :=
      h.inOrder.copyPacket hq (h.arrived p (by simp [hq])) (h.inOrder.available_pos hsum htot)
    have hlen := hcopy.produced
    have hlf := h.inOrder.total
    have hlf' := hcopy.inOrder.total
    rw [toInt_of_lt (availableAt_lt (by omega) hlay)]
    refine .inr ⟨htot,m',⟨hcopy.inOrder,hcopy.kept,by omega,hcopy.arrived⟩,by omega,?_⟩
    obtain ⟨hrou,hpla⟩ | hrou := hrou
    · exact .inr ⟨hrou,hcopy.inOrder,hcopy.arrived h.arrived,hpla⟩
    · exact .inl hrou

theorem Open.exists_answered :
    ∃ offers, answered layout (availableAt layout m.produced.length :: offers) m 0 = true := by
  induction hlen : m.totalRecvln using Nat.strongRecOn generalizing m with
  | _ len ih =>
    obtain ⟨-,hrou⟩ | ⟨-,m',-,hless,⟨hrou,-⟩ | ⟨hrou,hopen⟩⟩ := h.round hsum hlay
    · exact ⟨[],by simp [answered,hrou]⟩
    · exact ⟨[],by simp [answered,hrou]⟩
    · obtain ⟨offers,hoff⟩ := ih m'.totalRecvln (by omega) hopen rfl
      exact ⟨availableAt layout m'.produced.length :: offers,by simpa [answered,hrou] using hoff⟩

theorem Open.copyPackets {o : ℕ} (hans : answered layout (o :: offers) m 0 = true) :
    ∃ m' waiting, copyPackets offers m 0 (toInt o) = some (m', waiting) ∧ Copies chunks m m' ∧
      m'.packetQueue = [] ∧ (waiting=true ∨ m'.totalRecvln=0) := by
  induction offers generalizing m o with
  | nil =>
    rw [answered,and_eq_true,beq_iff_eq] at hans
    obtain ⟨rfl,hans⟩ := hans
    obtain ⟨hzr,hrou⟩ | ⟨-,m',hcop,-,⟨hrou,hnil⟩ | ⟨hrou,hopen⟩⟩ := h.round hsum hlay
    · exact ⟨m,false,by rw [PWQMessage.copyPackets,hrou]; rfl,.refl h.inOrder,h.inOrder.empty hzr,.inr hzr⟩
    · exact ⟨m',true,by rw [PWQMessage.copyPackets,hrou]; rfl,hcop,hnil,.inl rfl⟩
    · have hzr : m'.totalRecvln=0 := hopen.inOrder.total_eq_zero hsum (by simpa [hrou,answered] using hans)
      exact ⟨m',false,by rw [PWQMessage.copyPackets,hrou]; rfl,hcop,hopen.inOrder.empty hzr,.inr hzr⟩
  | cons o' offers ih =>
    rw [answered,and_eq_true,beq_iff_eq] at hans
    obtain ⟨rfl,hans⟩ := hans
    obtain ⟨-,hrou⟩ | ⟨-,m1,hcop,-,⟨hrou,-⟩ | ⟨hrou,hopen⟩⟩ := h.round hsum hlay
    · simp [hrou] at hans
    · simp [hrou] at hans
    · obtain ⟨m',waiting,hloop,hrs,hnil,hend⟩ := ih hopen (by simpa [hrou] using hans)
      refine ⟨m',waiting,?_,hcop.trans hrs,hnil,hend⟩
      rw [PWQMessage.copyPackets,hrou,bind_some]
      exact hloop

end

/-- What a call of `RecvPWQ` does for a receive queue of blocks: all packets are copied, and nothing is
posted. -/
structure Drained (chunks : List (List β)) (m m' : PWQMessage β) : Prop where
  reassembling : Reassembling chunks m'
  packetQueue : m'.packetQueue = []
  onDevice : m'.onDevice = m.onDevice
  enqueued : m'.enqueued = m.enqueued

theorem cleanupMsg_frame (m : PWQMessage β) : m.cleanupMsg.packetQueue=m.packetQueue ∧
    m.cleanupMsg.onDevice=m.onDevice ∧ m.cleanupMsg.enqueued=m.enqueued := by
  rw [cleanupMsg]
  split <;> exact ⟨rfl,rfl,rfl⟩

theorem Flags.recv_drained (h : Flags chunks m) (hopen : Open layout chunks m)
    (hq : m.packetQueue ≠ []) (hsum : layout.sum=chunks.flatten.length)
    (hlay : ∀ b ∈ layout, b<2^31) (hask : asked layout m offers = true) :
    ∃ m', m.recv offers = some m' ∧ Drained chunks m m' := by
  obtain ⟨p,q,hcons⟩ := exists_cons_of_ne_nil hq
  have hava := h.inOrder.available_pos hsum (h.inOrder.total_pos hq)
  have hans : answered layout offers m 0=true := by simpa only [asked,h.inOrder.findIdx_eq hcons] using hask
  obtain ⟨o,rest,rfl⟩ : ∃ o rest, offers=o :: rest := by
    apply exists_cons_of_ne_nil
    intro hnil
    rw [hnil,answered,beq_iff_eq] at hans
    omega
  obtain ⟨m1,waiting,hloop,hcop,hnil,hend⟩ := hopen.copyPackets hsum hlay hans
  have hlt := answered_lt hlay hans
  have hpos : 0<o := by
    rw [answered,and_eq_true,beq_iff_eq] at hans
    omega
  have hcall := h.inOrder.recvPWQ_eq hcons hpos (hlt o (by simp)) hloop
  have hkp := hcop.kept
  have hfra : ∃ m', m.recv (o :: rest) = some m' ∧ m'.packetQueue = [] ∧
      m'.onDevice=m.onDevice ∧ m'.enqueued=m.enqueued := by
    refine ⟨_,by rw [PWQMessage.recv,hcall,map_some],?_⟩
    cases waiting with
    | true =>
      simp only [if_true]
      split
      case isTrue =>
        obtain ⟨hque,hon,henq⟩ := cleanupMsg_frame m1
        exact ⟨hque.trans hnil,hon.trans hkp.onDevice,henq.trans hkp.enqueued⟩
      case isFalse => exact ⟨hnil,hkp.onDevice,hkp.enqueued⟩
    | false =>
      have hzr : m1.totalRecvln=0 := by simpa using hend
      simp only [false_eq_true,if_false,if_pos hzr]
      obtain ⟨hque,hon,henq⟩ := cleanupMsg_frame { m1 with workPosted := false }
      exact ⟨hque.trans hnil,hon.trans hkp.onDevice,henq.trans hkp.enqueued⟩
  obtain ⟨m',hrecv,hque,hon,henq⟩ := hfra
  exact ⟨m',hrecv,h.recv (hopen.within hlt) hrecv,hque,hon,henq⟩

theorem Open.exists_asked (h : Open layout chunks m) (hq : m.packetQueue ≠ [])
    (hsum : layout.sum=chunks.flatten.length) (hlay : ∀ b ∈ layout, b<2^31) :
    ∃ offers, asked layout m offers = true := by
  obtain ⟨p,q,hcons⟩ := exists_cons_of_ne_nil hq
  obtain ⟨offers,hoff⟩ := h.exists_answered hsum hlay
  refine ⟨availableAt layout m.produced.length :: offers,?_⟩
  rw [asked,h.inOrder.findIdx_eq hcons]
  exact hoff

end PWQMessage

variable {β : Type*} {layout : List ℕ} {offers : List ℕ} {i : ℕ}

theorem sum_map_set {α : Type*} (f : α → ℕ) {l : List α} {a b : α} (h : l[i]? = some a) :
    ((l.set i b).map f).sum+f a = (l.map f).sum+f b := by
  induction l generalizing i with
  | nil => simp at h
  | cons c l ih =>
    cases i with
    | zero =>
      obtain rfl := some.inj h
      simp only [set_cons_zero,map_cons,sum_cons]
      omega
    | succ i =>
      have := ih (by simpa using h)
      simp only [set_cons_succ,map_cons,sum_cons]
      omega

def Barrier (layout : List ℕ) (limit : ℕ) : Prop := ∀ n ≤ limit, n + (toInt (availableAt layout n)).toNat ≤ limit

theorem toInt_le (n : ℕ) : (toInt n).toNat≤n := by
  rw [toInt,BitVec.toInt_eq_toNat_cond,BitVec.toNat_ofNat]
  split <;> omega

theorem toInt_large {n : ℕ} (h : 2^31≤n) : (toInt n).toNat+2^31≤n := by
  rw [toInt,BitVec.toInt_eq_toNat_cond,BitVec.toNat_ofNat]
  split <;> omega

theorem availableAt_append {pre post : List ℕ} {n : ℕ} :
    availableAt (pre ++ post) n ≤ pre.sum-n ∨
      (pre.sum≤n ∧ availableAt (pre ++ post) n = availableAt post (n-pre.sum)) := by
  induction pre generalizing n with
  | nil => exact .inr ⟨Nat.zero_le _,rfl⟩
  | cons b pre ih =>
    rw [List.cons_append,availableAt,sum_cons]
    split
    case isTrue => exact .inl (by omega)
    case isFalse hge =>
      obtain hle | ⟨hle,heq⟩ := ih (n := n-b)
      · exact .inl (by omega)
      · refine .inr ⟨by omega,?_⟩
        rw [heq,Nat.sub_sub]

theorem barrier_large {pre post : List ℕ} {b : ℕ} (hb : 2^31≤b) :
    Barrier (pre ++ b :: post) (pre.sum+b-2^31) := by
  intro n hn
  obtain hle | ⟨hle,heq⟩ := @availableAt_append pre (b :: post) n
  · have := toInt_le (availableAt (pre ++ b :: post) n)
    omega
  · have hava : availableAt (pre ++ b :: post) n=pre.sum+b-n := by
      rw [heq,availableAt,if_pos (by omega)]
      omega
    have := toInt_large (n := pre.sum+b-n) (by omega)
    rw [hava]
    omega

namespace PWQMessage

variable {m m' : PWQMessage β} {bytesAvail : ℤ} {waiting again : Bool}

/-- The bytes produced, and those that the packets count. -/
def load (m : PWQMessage β) : ℕ := m.produced.length + (m.packetQueue.map fun p => p.size.toNat).sum

theorem dequeuePacket_bounds (h : m.dequeuePacket = some m') :
    m'.load ≤ m.load ∧ m'.produced=m.produced := by
  obtain ⟨p,hp,rfl⟩ := map_eq_some_iff.mp h
  refine ⟨?_,rfl⟩
  cases hq : m.packetQueue with
  | nil => simp [hq] at hp
  | cons r q =>
    simp only [load,hq,tail_cons,map_cons,sum_cons]
    omega

theorem produce_bounds {p : IncomingPacket β} {bytes : ℤ} (hp : m.packetQueue[i]? = some p)
    (hzr : 0≤bytes) (hle : bytes≤p.size) : (m.produce i p bytes.toNat).load ≤ m.load ∧
      (m.produce i p bytes.toNat).produced.length ≤ m.produced.length+bytes.toNat := by
  have hlen : (m.produce i p bytes.toNat).produced.length ≤ m.produced.length+bytes.toNat := by
    simp only [produce,length_append,length_take]
    omega
  refine ⟨?_,hlen⟩
  have hsum := sum_map_set (fun p => p.size.toNat)
    (b := { p with size := p.size-bytes.toNat, offset := p.offset+bytes.toNat }) hp
  simp only [load,produce] at hlen ⊢
  simp only at hsum
  omega

theorem copyPacket_bounds {r : Copied β} (h : m.copyPacket i bytesAvail = some r) :
    r.message.load ≤ m.load ∧ r.message.produced.length ≤ m.produced.length+bytesAvail.toNat := by
  rw [copyPacket] at h
  split at h
  case isTrue =>
    obtain rfl := some.inj h
    exact ⟨le_rfl,Nat.le_add_right _ _⟩
  case isFalse =>
    obtain ⟨p,hp,h⟩ := bind_eq_some_iff.mp h
    by_cases hzr : p.size=0
    · rw [if_pos hzr] at h
      obtain rfl := some.inj h
      exact ⟨le_rfl,Nat.le_add_right _ _⟩
    · rw [if_neg hzr] at h
      obtain ⟨hneg,h⟩ := ite_none_left_eq_some.mp h
      have hcopy : (if p.size ≥ bytesAvail then bytesAvail else p.size)≤p.size ∧
          (if p.size ≥ bytesAvail then bytesAvail else p.size)≤bytesAvail := by
        split <;> omega
      generalize (if p.size ≥ bytesAvail then bytesAvail else p.size)=bytes at h hneg hcopy
      obtain ⟨hload,hpro⟩ := m.produce_bounds hp (not_lt.mp hneg) hcopy.1
      have hbyt : bytes.toNat≤bytesAvail.toNat := Int.toNat_le_toNat hcopy.2
      split at h
      case isTrue =>
        obtain ⟨m1,hdeq,rfl⟩ := map_eq_some_iff.mp h
        obtain ⟨hless,hsm⟩ := dequeuePacket_bounds hdeq
        have hbt : m1.load ≤ m.load ∧ m1.produced.length ≤ m.produced.length+bytesAvail.toNat :=
          ⟨hless.trans hload,by rw [hsm]; omega⟩
        split <;> exact hbt
      case isFalse =>
        obtain rfl := some.inj h
        exact ⟨hload,hpro.trans (by omega)⟩

theorem copyPackets_load (h : copyPackets offers m i bytesAvail = some (m', waiting)) : m'.load ≤ m.load := by
  induction offers generalizing m i bytesAvail with
  | nil =>
    obtain ⟨r,hr,hm'⟩ := map_eq_some_iff.mp h
    have hload := (copyPacket_bounds hr).1
    cases r <;> obtain ⟨rfl,-⟩ := Prod.mk.inj hm' <;> exact hload
  | cons o offers ih =>
    obtain ⟨r,hr,hrs⟩ := bind_eq_some_iff.mp h
    have hload := (copyPacket_bounds hr).1
    cases r with
    | ended m1 | waiting m1 =>
      obtain ⟨rfl,-⟩ := Prod.mk.inj (some.inj hrs)
      exact hload
    | next m1 i1 => exact (ih hrs).trans hload

theorem copyPackets_barrier {limit o : ℕ} (hbar : Barrier layout limit) (hle : m.produced.length≤limit)
    (hans : answered layout (o :: offers) m i = true)
    (h : copyPackets offers m i (toInt o) = some (m', waiting)) : m'.produced.length≤limit := by
  induction offers generalizing m i o with
  | nil =>
    rw [answered,and_eq_true,beq_iff_eq] at hans
    obtain ⟨rfl,-⟩ := hans
    obtain ⟨r,hr,hm'⟩ := map_eq_some_iff.mp h
    have hrou := (copyPacket_bounds hr).2.trans (hbar _ hle)
    cases r <;> obtain ⟨rfl,-⟩ := Prod.mk.inj hm' <;> exact hrou
  | cons o' offers ih =>
    rw [answered,and_eq_true,beq_iff_eq] at hans
    obtain ⟨rfl,hans⟩ := hans
    obtain ⟨r,hr,hrs⟩ := bind_eq_some_iff.mp h
    have hrou := (copyPacket_bounds hr).2.trans (hbar _ hle)
    cases r with
    | ended m1 | waiting m1 =>
      obtain ⟨rfl,-⟩ := Prod.mk.inj (some.inj hrs)
      exact hrou
    | next m1 i1 =>
      rw [hr] at hans
      exact ih hrou hans hrs

theorem cleanupMsg_bounds (m : PWQMessage β) : m.cleanupMsg.load=m.load ∧ m.cleanupMsg.produced=m.produced := by
  rw [cleanupMsg]
  split <;> exact ⟨rfl,rfl⟩

theorem recvPWQ_load (h : m.recvPWQ offers = some (m', again)) : m'.load ≤ m.load := by
  obtain ⟨m1,hali,hcas⟩ := recvPWQ_cases h
  have hsm : m'.load=m1.load := by rw [load,load,hali.produced,hali.packetQueue]
  obtain rfl | ⟨o,rest,i,waiting,-,-,hloop⟩ := hcas
  · exact hsm.le
  · exact hsm.trans_le (copyPackets_load hloop)

section

variable {limit : ℕ} (hbar : Barrier layout limit) (hle : m.produced.length ≤ limit)
  (hask : asked layout m offers = true)
include hbar hle hask

theorem recvPWQ_barrier (h : m.recvPWQ offers = some (m', again)) : m'.produced.length≤limit := by
  obtain ⟨m1,hali,hcas⟩ := recvPWQ_cases h
  rw [hali.produced]
  obtain rfl | ⟨o,rest,i,waiting,rfl,hi,hloop⟩ := hcas
  · exact hle
  · simp only [asked,hi] at hask
    exact copyPackets_barrier hbar hle hask hloop

omit hbar hle hask in
theorem recv_load (h : m.recv offers = some m') : m'.load ≤ m.load := by
  obtain ⟨⟨m1,again⟩,hcall,rfl⟩ := map_eq_some_iff.mp h
  have hload := recvPWQ_load hcall
  split
  case isTrue => exact (cleanupMsg_bounds m1).1.trans_le hload
  case isFalse => exact hload

theorem recv_barrier (h : m.recv offers = some m') : m'.produced.length≤limit := by
  obtain ⟨⟨m1,again⟩,hcall,rfl⟩ := map_eq_some_iff.mp h
  have hlen := recvPWQ_barrier hbar hle hask hcall
  split
  case isTrue => rwa [(cleanupMsg_bounds m1).2]
  case isFalse => exact hlen

omit hbar hle hask in
theorem work_load (h : m.work offers = some m') : m'.load ≤ m.load := by
  obtain ⟨⟨m1,again⟩,hcall,rfl⟩ := map_eq_some_iff.mp h
  have hload := recvPWQ_load hcall
  split
  case isTrue => exact (cleanupMsg_bounds m1).1.trans_le hload
  case isFalse => exact hload

theorem work_barrier (h : m.work offers = some m') : m'.produced.length≤limit := by
  obtain ⟨⟨m1,again⟩,hcall,rfl⟩ := map_eq_some_iff.mp h
  have hlen := recvPWQ_barrier hbar hle hask hcall
  split
  case isTrue => exact (congrArg List.length (cleanupMsg_bounds m1).2).trans_le hlen
  case isFalse => exact hlen

end

theorem arriveData_load {chunk : ℕ} {data : List β} (h : m.arriveData chunk data = some m') :
    m'.load=m.load ∧ m'.produced=m.produced := by
  obtain ⟨-,rfl⟩ := ite_some_none_eq_some.mp h
  refine ⟨?_,rfl⟩
  have hsi : ∀ p : IncomingPacket β, (if p.chunk=chunk then
      { p with data := data, arrived := true } else p).size.toNat=p.size.toNat := by
    intro p
    split <;> rfl
  simp only [load,List.map_map,Function.comp_def,hsi]

theorem enqueuePacket_load (m : PWQMessage β) (chunk : ℕ) (data : List β) (arrived : Bool) :
    (m.enqueuePacket chunk data arrived).load=m.load+(toInt data.length).toNat := by
  simp [load,enqueuePacket,Nat.add_assoc]

theorem receive_load {seqNo : BitVec 32} {p : Payload β} (h : m.receive seqNo p offers = some m') :
    m'.load ≤ m.load+(toInt p.size).toNat := by
  cases p with
  | data bytes => exact (recv_load h).trans (enqueuePacket_load m seqNo.toNat bytes true).le
  | recv buffer =>
    obtain rfl := some.inj h
    exact (enqueuePacket_load m seqNo.toNat buffer false).le
  | neither => exact (recv_load h).trans (Nat.le_add_right _ _)

end PWQMessage

end PAMI.Pwq
