import PAMI.Pwq.DispatchTable
import PAMI.Pwq.RecvLayout
import PAMI.Pwq.SendHeaders

namespace PAMI.Pwq

open PAMI.Math NativeInterface PWQMessage List Option

variable {β : Type*} {layout : List ℕ} {offers : List ℕ} {d : Delivery β}

theorem Delivery.payload_size {data : List β} {p : Payload β} (h : d.payload data = some p) :
    p.size=data.length := by
  cases d with
  | inside =>
    obtain rfl := some.inj h
    rfl
  | later buffer =>
    obtain ⟨hlen,rfl⟩ := ite_some_none_eq_some.mp h
    exact hlen
  | null =>
    obtain ⟨hnil,rfl⟩ := ite_some_none_eq_some.mp h
    rw [List.isEmpty_iff.mp hnil]
    rfl

namespace NativeInterface

variable {ni ni' : NativeInterface β} {i : ℕ} {id : MsgId} {seqNo : BitVec 32} {p : Payload β}
  {l : LocalRecv} {P : PWQMessage β → Prop}

/-- The bytes that all messages have produced, and those that their packets count. -/
def load (ni : NativeInterface β) : ℕ := (ni.messages.map fun m => m.pwq.load).sum

structure Changes (ni ni' : NativeInterface β) (i : ℕ) (pwq pwq' : PWQMessage β) : Prop where
  messages : ∃ m m', ni.messages[i]? = some m ∧ m.pwq = pwq ∧ m'.pwq = pwq' ∧ ni'.messages = ni.messages.set i m'
  direct : ni'.direct = ni.direct

section

variable {pwq pwq' : PWQMessage β} (h : Changes ni ni' i pwq pwq')
include h

theorem Changes.load : ni'.load+pwq.load=ni.load+pwq'.load := by
  obtain ⟨m,m',hm,rfl,rfl,hmss⟩ := h.messages
  rw [NativeInterface.load,hmss]
  exact sum_map_set (fun m => m.pwq.load) hm

theorem Changes.forall (hall : ∀ m ∈ ni.messages, P m.pwq) (hP : P pwq → P pwq') :
    ∀ m ∈ ni'.messages, P m.pwq := by
  obtain ⟨m0,m1,hm,rfl,rfl,hmss⟩ := h.messages
  intro m' hm'
  rw [hmss] at hm'
  obtain hm' | rfl := mem_or_eq_of_mem_set hm'
  · exact hall m' hm'
  · exact hP (hall m0 (mem_of_getElem? hm))

theorem Changes.nonempty : ni.messages ≠ [] ∧ ni'.messages ≠ [] := by
  obtain ⟨m0,m1,hm,-,-,hmss⟩ := h.messages
  have hne : ni.messages ≠ [] := fun hnil => by simp [hnil] at hm
  rw [hmss]
  exact ⟨hne,by simpa using hne⟩

end

theorem changes_update {m : Message β} {pwq : PWQMessage β} (attached : List MsgId)
    (hm : ni.messages[i]? = some m) (hs : ni.update i { m with attached := attached } pwq = some ni') :
    Changes ni ni' i m.pwq pwq := by
  obtain ⟨maps,-,rfl⟩ := map_eq_some_iff.mp hs
  exact ⟨⟨m,_,hm,rfl,rfl,rfl⟩,rfl⟩

theorem changes_attach (hs : ni.attach i id seqNo p offers = some ni') :
    ∃ m pwq, ni.messages[i]? = some m ∧ m.pwq.receive seqNo p offers = some pwq ∧ Changes ni ni' i m.pwq pwq := by
  obtain ⟨m,hm,hs⟩ := bind_eq_some_iff.mp hs
  obtain ⟨pwq,hpwq,hs⟩ := bind_eq_some_iff.mp hs
  exact ⟨m,pwq,hm,hpwq,changes_update _ hm hs⟩

theorem load_findMessage (ni : NativeInterface β) (id : MsgId) (l : LocalRecv) :
    (ni.findMessage id l).1.load=ni.load := by
  rw [NativeInterface.findMessage]
  split
  case h_1 => rfl
  case h_2 => simp [NativeInterface.load,newMessage,PWQMessage.load,PWQMessage.new]

theorem forall_findMessage (hall : ∀ m ∈ ni.messages, P m.pwq) (hnew : P (.new l.totalRcvln)) :
    ∀ m ∈ (ni.findMessage id l).1.messages, P m.pwq := by
  rw [NativeInterface.findMessage]
  split
  case h_1 => exact hall
  case h_2 =>
    intro m hm
    obtain hm | hm := mem_append.mp hm
    · exact hall m hm
    · rw [mem_singleton.mp hm]
      exact hnew

theorem receiveContig_direct (hs : ni.receiveContig id p l = some ni') :
    ni'.messages=ni.messages ∧ ∃ d, ni'.direct = ni.direct ++ [d] := by
  cases p with
  | data bytes =>
    cases bytes with
    | nil =>
      obtain rfl := some.inj hs
      exact ⟨rfl,_,rfl⟩
    | cons b bytes =>
      obtain ⟨avail,-,hs⟩ := bind_eq_some_iff.mp hs
      obtain ⟨-,rfl⟩ := ite_some_none_eq_some.mp hs
      exact ⟨rfl,_,rfl⟩
  | recv buffer =>
    obtain ⟨avail,-,hs⟩ := bind_eq_some_iff.mp hs
    obtain ⟨-,rfl⟩ := ite_some_none_eq_some.mp hs
    exact ⟨rfl,_,rfl⟩
  | neither =>
    obtain rfl := some.inj hs
    exact ⟨rfl,_,rfl⟩

end NativeInterface

namespace Transfer

variable {t t' : Transfer β} {origin : ℕ} {c : Chunk β}

theorem dispatch_cases (hs : t.dispatch layout origin d offers = some t') :
    ∃ c p, t.sender.chunks[t.dispatched]? = some c ∧ p.size=c.data.length ∧
      t'.sender=t.sender ∧ t'.dispatched=t.dispatched+1 ∧
      ((c.header.contig≠0 ∧ t'.target.messages=t.target.messages ∧
          ∃ d, t'.target.direct = t.target.direct ++ [d]) ∨
        (c.header.contig=0 ∧ t.askedInDispatch layout origin c p offers = true ∧
          ∃ m pwq, (t.found layout origin c).1.messages[(t.found layout origin c).2]? = some m ∧
            m.pwq.receive c.header.seqNo p offers = some pwq ∧
            (t.found layout origin c).1.Changes t'.target (t.found layout origin c).2 m.pwq pwq)) := by
  obtain ⟨-,c,p,target,hc,hp,hask,htar,rfl⟩ := dispatch_some hs
  refine ⟨c,p,hc,Delivery.payload_size hp,rfl,rfl,?_⟩
  simp only [NativeInterface.step,dispatchSendPwq] at htar
  by_cases hcon : c.header.contig≠0
  · rw [if_pos hcon] at htar
    exact .inl ⟨hcon,receiveContig_direct htar⟩
  · rw [if_neg hcon] at htar
    have hzr : c.header.contig=0 := not_not.mp hcon
    exact .inr ⟨hzr,hask hzr,changes_attach htar⟩

theorem arrive_cases (hs : t.arrive layout offers = some t') :
    t'.sender=t.sender ∧ t'.dispatched=t.dispatched ∧
      ((t'.target.messages=t.target.messages ∧ t'.target.direct.length=t.target.direct.length) ∨
        ∃ (i chunk : ℕ) (data : List β) (m : Message β) (pwq pwq' : PWQMessage β),
          t.target.messages[i]? = some m ∧ m.pwq.arriveData chunk data = some pwq ∧ asked layout pwq offers = true ∧
          pwq.recv offers = some pwq' ∧ t.target.Changes t'.target i m.pwq pwq') := by
  rw [Transfer.arrive] at hs
  split at hs
  case h_1 => simp at hs
  case h_2 k data _ =>
    obtain ⟨target,htar,rfl⟩ := map_eq_some_iff.mp hs
    obtain ⟨d,-,htar⟩ := bind_eq_some_iff.mp htar
    obtain ⟨-,rfl⟩ := ite_some_none_eq_some.mp htar
    exact ⟨rfl,rfl,.inl ⟨rfl,length_set⟩⟩
  case h_3 i chunk data _ =>
    obtain ⟨hgua,hs⟩ := ite_none_right_eq_some.mp hs
    obtain ⟨target,htar,rfl⟩ := map_eq_some_iff.mp hs
    obtain ⟨m,hm,htar⟩ := bind_eq_some_iff.mp htar
    obtain ⟨pwq,hpwq,htar⟩ := bind_eq_some_iff.mp htar
    obtain ⟨pwq',hpwq',htar⟩ := bind_eq_some_iff.mp htar
    rw [hm,all_some,hpwq,all_some] at hgua
    exact ⟨rfl,rfl,.inr ⟨i,chunk,data,m,pwq,pwq',hm,hpwq,hgua,hpwq',changes_update m.attached hm htar⟩⟩

theorem work_cases {i : ℕ} (hs : t.work layout i offers = some t') :
    t'.sender=t.sender ∧ t'.dispatched=t.dispatched ∧ ∃ (m : Message β) (pwq : PWQMessage β),
      t.target.messages[i]? = some m ∧ asked layout m.pwq offers = true ∧ m.pwq.work offers = some pwq ∧
      t.target.Changes t'.target i m.pwq pwq := by
  obtain ⟨hgua,hs⟩ := ite_none_right_eq_some.mp hs
  obtain ⟨target,htar,rfl⟩ := map_eq_some_iff.mp hs
  obtain ⟨m,hm,htar⟩ := bind_eq_some_iff.mp htar
  obtain ⟨-,htar⟩ := ite_none_right_eq_some.mp htar
  obtain ⟨pwq,hpwq,htar⟩ := bind_eq_some_iff.mp htar
  rw [hm,all_some] at hgua
  exact ⟨rfl,rfl,m,pwq,hm,hgua,hpwq,changes_update m.attached hm htar⟩

end Transfer

variable {β : Type*} {layout : List ℕ} {offers : List ℕ} {limit : ℕ}

theorem sum_toInt_le (l : List (List β)) :
    (l.map fun d => (toInt d.length).toNat).sum≤l.flatten.length := by
  induction l with
  | nil => exact le_rfl
  | cons d l ih =>
    rw [map_cons,sum_cons,flatten_cons,length_append]
    exact add_le_add (toInt_le d.length) ih

theorem sum_toInt_lt {l : List (List β)} {b : List β} (hb : b ∈ l) (hlar : 2^31≤b.length) :
    (l.map fun d => (toInt d.length).toNat).sum<l.flatten.length := by
  obtain ⟨pre,post,rfl⟩ := append_of_mem hb
  have hpre := sum_toInt_le pre
  have hps := sum_toInt_le post
  have := toInt_large hlar
  simp only [map_append,List.sum_append,map_cons,sum_cons,flatten_append,flatten_cons,length_append]
  omega

theorem PWQMessage.receive_barrier {m m' : PWQMessage β} {seqNo : BitVec 32} {p : Payload β}
    (hbar : Barrier layout limit) (hle : m.produced.length≤limit)
    (hask : (match p with
      | .data bytes => asked layout (m.enqueuePacket seqNo.toNat bytes true) offers
      | .recv _ => offers.isEmpty
      | .neither => asked layout m offers)=true) (h : m.receive seqNo p offers = some m') :
    m'.produced.length≤limit := by
  cases p with
  | data bytes => exact recv_barrier (m := m.enqueuePacket seqNo.toNat bytes true) hbar hle hask h
  | recv buffer =>
    obtain rfl := some.inj h
    exact hle
  | neither => exact recv_barrier hbar hle hask h

namespace Transfer

variable {queue : List (List β)} {t t' : Transfer β} {origin : ℕ} {e : TransferEvent β} {c : Chunk β}

/-- The sizes, as `int`, of the chunks that are dispatched. -/
def counted (t : Transfer β) : ℕ := ((t.sender.chunks.take t.dispatched).map fun c => (toInt c.data.length).toNat).sum

/-- What holds of a message in chunks, of any size and number: the first chunk is received by a message, and the one whose
number is the flag directly; what is produced and counted comes from the chunks. -/
structure Counted (queue : List (List β)) (t : Transfer β) : Prop where
  sending : SendPWQ.Sending queue t.sender
  dispatched : t.dispatched ≤ t.sender.chunks.length
  load : t.target.load ≤ t.counted
  messages : 0 < t.dispatched → t.target.messages ≠ []
  direct : 2^28 < t.dispatched → t.target.direct ≠ []

theorem counted_succ (hc : t.sender.chunks[t.dispatched]? = some c) (hsen : t'.sender=t.sender)
    (hdis : t'.dispatched=t.dispatched+1) :
    t'.counted=t.counted+(toInt c.data.length).toNat := by
  rw [counted,hsen,hdis,take_add_one,hc,toList_some,map_append,List.sum_append]
  rfl

section

variable (h : Counted queue t)
include h

theorem Counted.contig (hc : t.sender.chunks[t.dispatched]? = some c) :
    (t.dispatched=0 → c.header.contig=0) ∧ (t.dispatched=2^28 → c.header.contig≠0) := by
  have hnum := h.sending.pwqSeqNo hc
  refine ⟨fun hzr => contig_ofNat hnum (by omega),fun hflag => contig_contigFlag ?_⟩
  rw [hnum,hflag]
  rfl

theorem Counted.dispatch {d : Delivery β} (hs : t.dispatch layout origin d offers = some t') :
    Counted queue t' := by
  obtain ⟨c,p,hc,hsi,hsen,hdis,hcas⟩ := dispatch_cases hs
  have hlt := (List.getElem?_eq_some_iff.mp hc).1
  have hctd := counted_succ hc hsen hdis
  obtain ⟨hfir,hflag⟩ := h.contig hc
  have hload := h.load
  refine ⟨by rw [hsen]; exact h.sending,by rw [hsen,hdis]; exact hlt,?_,?_,?_⟩
  · obtain ⟨-,hmss,-⟩ | ⟨-,-,m,pwq,-,hrcv,hcha⟩ := hcas
    · rw [NativeInterface.load,hmss,← NativeInterface.load,hctd]
      omega
    · have hchn := hcha.load
      have hpac := receive_load hrcv
      rw [found,NativeInterface.load_findMessage] at hchn
      rw [hsi] at hpac
      omega
  · intro _
    obtain ⟨hcon,hmss,-⟩ | ⟨-,-,m,pwq,-,-,hcha⟩ := hcas
    · rw [hmss]
      exact h.messages (pos_of_ne_zero fun hzr => hcon (hfir hzr))
    · exact hcha.nonempty.2
  · intro hmn
    obtain ⟨-,-,d,hdir⟩ | ⟨hcon,-,m,pwq,-,-,hcha⟩ := hcas
    · rw [hdir]
      simp
    · have hne : t.dispatched≠2^28 := fun heq => hflag heq hcon
      rw [hcha.direct,found,(t.target.findMessage_frame _ _).1]
      exact h.direct (by omega)

theorem Counted.send {e : SendEvent} {sender : SendPWQ β} (hs : t.sender.step e = some sender) :
    Counted queue { t with sender := sender } := by
  have hprf := SendPWQ.chunks_step hs
  refine ⟨h.sending.step hs,h.dispatched.trans hprf.length_le,?_,h.messages,h.direct⟩
  obtain ⟨more,hmore⟩ := hprf
  have hctd : Transfer.counted { t with sender := sender } = t.counted := by
    simp only [counted]
    rw [← hmore,take_append_of_le_length h.dispatched]
  exact h.load.trans_eq hctd.symm

theorem Counted.changes (hsen : t'.sender=t.sender) (hdis : t'.dispatched=t.dispatched) {i : ℕ}
    {pwq pwq' : PWQMessage β} (hcha : t.target.Changes t'.target i pwq pwq')
    (hless : pwq'.load≤pwq.load) : Counted queue t' := by
  have hload := h.load
  have hchn := hcha.load
  refine ⟨by rw [hsen]; exact h.sending,by rw [hsen,hdis]; exact h.dispatched,?_,
    fun _ => hcha.nonempty.2,fun hmn => ?_⟩
  · rw [counted] at hload ⊢
    rw [hsen,hdis]
    omega
  · rw [hcha.direct]
    exact h.direct (by omega)

theorem Counted.step (hs : t.step layout origin e = some t') : Counted queue t' := by
  cases e with
  | send e =>
    obtain ⟨sender,hsen,rfl⟩ := map_eq_some_iff.mp hs
    exact h.send hsen
  | dispatch d offers => exact h.dispatch hs
  | arrive offers =>
    obtain ⟨hsen,hdis,hcas⟩ := arrive_cases hs
    obtain ⟨hmss,hdir⟩ | ⟨i,chunk,data,m,pwq,pwq',-,hare,-,hrecv,hcha⟩ := hcas
    · refine ⟨by rw [hsen]; exact h.sending,by rw [hsen,hdis]; exact h.dispatched,?_,?_,?_⟩
      · rw [NativeInterface.load,hmss,counted,hsen,hdis]
        exact h.load
      · rw [hmss,hdis]
        exact h.messages
      · rw [← length_pos_iff,hdir,hdis,length_pos_iff]
        exact h.direct
    · apply h.changes hsen hdis hcha
      exact (recv_load hrecv).trans_eq (arriveData_load hare).1
  | work i offers =>
    obtain ⟨hsen,hdis,m,pwq,-,-,hwr,hcha⟩ := work_cases hs
    exact h.changes hsen hdis hcha (work_load hwr)

end

def Below (limit : ℕ) (t : Transfer β) : Prop := ∀ m ∈ t.target.messages, m.pwq.produced.length ≤ limit

theorem Below.step (hbar : Barrier layout limit) (h : Below limit t)
    (hs : t.step layout origin e = some t') : Below limit t' := by
  cases e with
  | send e =>
    obtain ⟨sender,-,rfl⟩ := map_eq_some_iff.mp hs
    exact h
  | dispatch d offers =>
    obtain ⟨c,p,-,-,-,-,hcas⟩ := dispatch_cases hs
    obtain ⟨-,hmss,-⟩ | ⟨-,hask,m,pwq,hm,hrcv,hcha⟩ := hcas
    · rw [Below,hmss]
      exact h
    · have hfou : ∀ m ∈ (t.found layout origin c).1.messages, m.pwq.produced.length≤limit :=
        forall_findMessage (P := fun pwq => pwq.produced.length≤limit) h (Nat.zero_le limit)
      apply hcha.forall (P := fun pwq => pwq.produced.length≤limit) hfou
      intro hle
      rw [askedInDispatch,hm,all_some] at hask
      exact receive_barrier hbar hle hask hrcv
  | arrive offers =>
    obtain ⟨-,-,hcas⟩ := arrive_cases hs
    obtain ⟨hmss,-⟩ | ⟨i,chunk,data,m,pwq,pwq',-,hare,hask,hrecv,hcha⟩ := hcas
    · rw [Below,hmss]
      exact h
    · apply hcha.forall (P := fun pwq => pwq.produced.length≤limit) h
      intro hle
      rw [← (arriveData_load hare).2] at hle
      exact recv_barrier hbar hle hask hrecv
  | work i offers =>
    obtain ⟨-,-,m,pwq,-,hask,hwr,hcha⟩ := work_cases hs
    apply hcha.forall (P := fun pwq => pwq.produced.length≤limit) h
    intro hle
    exact work_barrier hbar hle hask hwr

end Transfer

end PAMI.Pwq
