import PAMI.Pwq.DispatchRuns
import PAMI.Pwq.RecvLayout
import PAMI.Pwq.SendHeaders

namespace PAMI.Pwq

open PAMI.Math PWQMessage List Option

variable {β : Type*} {parts : List (List β)} {layout : List ℕ}

/-- Parts that a receive queue of blocks can receive as chunks: their number and all sizes are in range. -/
structure Parts (layout : List ℕ) (parts : List (List β)) : Prop where
  nonempty : ∀ data ∈ parts, data ≠ []
  small : ∀ data ∈ parts, data.length < 2^31
  count : parts.length ≤ 2^28
  sum : layout.sum = parts.flatten.length
  layout : ∀ b ∈ layout, b < 2^31

namespace NativeInterface

variable {ni ni' : NativeInterface β} {id : MsgId} {m : Message β} {offers : List ℕ} {data : List β}
  {seqNo : BitVec 32}

/-- A target that receives one message in chunks. -/
structure Receives (parts : List (List β)) (id : MsgId) (ni : NativeInterface β) (m : Message β) :
    Prop where
  messages : ni.messages = [m]
  direct : ni.direct = []
  tabled : Tabled ni
  created : m.created = id
  myMap : m.myMap = true
  flags : m.pwq.Flags parts
  quiet : m.pwq.onDevice = false

theorem Receives.get (h : Receives parts id ni m) : ni.messages[0]? = some m := by
  rw [h.messages]
  rfl

section

variable (h : Receives parts id ni m) (hpar : Parts layout parts) (hemp : m.pwq.packetQueue = [])
  (hget : parts[m.pwq.enqueued.length]? = some data)
include h hpar hemp hget

theorem Receives.allocated : m.pwq.allocated=true := by
  by_contra hall
  have hzr := h.flags.unfinished (by simpa using hall)
  have hall := h.flags.inOrder.produced_all.mpr hzr
  have hcou := h.flags.inOrder.count
  have hpro := h.flags.inOrder.produced
  rw [hemp,length_nil,add_zero] at hcou
  rw [hemp,headOffset,take_zero,append_nil,hcou,hall] at hpro
  have hle := (flatten_take_isPrefix parts (m.pwq.enqueued.length+1)).length_le
  rw [flatten_take_succ,← hpro,length_append,getD_eq_getElem?_getD,hget,getD_some] at hle
  have hpos := length_pos_of_ne_nil (hpar.nonempty data (mem_of_getElem? hget))
  omega

omit h hpar hemp hget in
theorem Receives.inSequence (hpar : Parts layout parts) :
    PWQMessage.InSequence parts m.pwq m.pwq.enqueued.length :=
  ⟨rfl,fun data hda => ⟨hpar.nonempty data (mem_of_getElem? hda),hpar.small data (mem_of_getElem? hda)⟩⟩

omit h hpar hemp hget in
theorem Receives.update (h : Receives parts id ni m) {pwq : PWQMessage β} (hp : m.pwq.Proceeds pwq)
    (hfla : pwq.Flags parts) (hqui : pwq.onDevice=false) (attached : List MsgId) :
    ∃ ni', ni.update 0 { m with attached := attached } pwq = some ni' ∧ ni'.sendPwqDispatch=ni.sendPwqDispatch ∧
      Receives parts id ni' { m with attached := attached, pwq := pwq } := by
  obtain ⟨maps,hupd⟩ := h.tabled.exists_update h.get pwq attached
  have htab := (h.tabled.update h.get hp attached hupd).1
  refine ⟨_,hupd,rfl,?_,h.direct,htab,h.created,h.myMap,hfla,hqui⟩
  simp [h.messages]

theorem Receives.open_enqueued : (m.pwq.enqueuePacket m.pwq.enqueued.length data true).Flags parts ∧
      (m.pwq.enqueuePacket m.pwq.enqueued.length data true).Open layout parts := by
  have hfla : (m.pwq.enqueuePacket m.pwq.enqueued.length data true).Flags parts :=
    h.flags.enqueuePacket (inSequence hpar) hget rfl fun _ => rfl
  refine ⟨hfla,hfla.inOrder,fun p hp => ?_,fun hnil => by simp [enqueuePacket] at hnil⟩
  rw [enqueuePacket,hemp] at hp
  rw [mem_singleton.mp hp]

theorem Receives.attach_data (hseq : seqNo.toNat=m.pwq.enqueued.length)
    (hask : asked layout (m.pwq.enqueuePacket seqNo.toNat data true) offers = true) :
    ∃ ni' m', ni.attach 0 id seqNo (.data data) offers = some ni' ∧
      ni'.sendPwqDispatch=ni.sendPwqDispatch ∧ Receives parts id ni' m' ∧
      m'.pwq.packetQueue = [] ∧ m'.pwq.enqueued.length=m.pwq.enqueued.length+1 := by
  rw [hseq] at hask
  obtain ⟨hfla,hopen⟩ := h.open_enqueued hpar hemp hget
  obtain ⟨pwq,hrecv,hdra⟩ := hfla.recv_drained hopen (by simp [PWQMessage.enqueuePacket])
    hpar.sum hpar.layout hask
  have hrcv : m.pwq.receive seqNo (.data data) offers = some pwq := by
    rw [PWQMessage.receive,hseq]
    exact hrecv
  obtain ⟨ni',hupd,hsm,hrec⟩ := h.update (proceeds_receive hrcv)
    hdra.reassembling.flags (hdra.onDevice.trans h.quiet) (m.attached ++ [id])
  refine ⟨ni',_,?_,hsm,hrec,hdra.packetQueue,?_⟩
  · rw [NativeInterface.attach,h.get,bind_some,hrcv,bind_some,hupd]
  · simp [hdra.enqueued,PWQMessage.enqueuePacket]

theorem Receives.attach_recv (hseq : seqNo.toNat=m.pwq.enqueued.length) {buffer : List β}
    (hlen : buffer.length=data.length) (offers : List ℕ) :
    ∃ ni' m', ni.attach 0 id seqNo (.recv buffer) offers = some ni' ∧
      ni'.sendPwqDispatch=ni.sendPwqDispatch ∧ Receives parts id ni' m' ∧
      (∃ p, m'.pwq.packetQueue = [p] ∧ p.arrived=false ∧ p.chunk=m.pwq.enqueued.length) ∧
      m'.pwq.enqueued.length=m.pwq.enqueued.length+1 := by
  have hfla : (m.pwq.enqueuePacket m.pwq.enqueued.length buffer false).Flags parts :=
    h.flags.enqueuePacket (inSequence hpar) hget hlen (by simp)
  rw [← hseq] at hfla
  have hrcv : m.pwq.receive seqNo (.recv buffer) offers = some (m.pwq.enqueuePacket seqNo.toNat buffer false) := rfl
  obtain ⟨ni',hupd,hsm,hrec⟩ := h.update (proceeds_receive hrcv) hfla h.quiet (m.attached ++ [id])
  refine ⟨ni',_,?_,hsm,hrec,?_,?_⟩
  · rw [NativeInterface.attach,h.get,bind_some,hrcv,bind_some,hupd]
  · exact ⟨_,by rw [enqueuePacket,hemp]; rfl,rfl,hseq⟩
  · simp [enqueuePacket]

end

theorem Receives.open_arrived (layout : List ℕ) (h : Receives parts id ni m) {p : IncomingPacket β}
    (hq : m.pwq.packetQueue = [p]) (harr : p.arrived=false) (hget : parts[p.chunk]? = some data) :
    ∃ pwq, m.pwq.arriveData p.chunk data = some pwq ∧ pwq.Flags parts ∧ pwq.Open layout parts ∧
      pwq.packetQueue ≠ [] ∧ pwq.onDevice=m.pwq.onDevice ∧ pwq.enqueued=m.pwq.enqueued := by
  have hare : m.pwq.arriveData p.chunk data = some { m.pwq with
      packetQueue := [{ p with data := data, arrived := true }] } := by
    rw [arriveData,if_pos ⟨p,by simp [hq],rfl,harr⟩]
    simp [hq]
  have hino := h.flags.inOrder.arriveData hget hare
  refine ⟨_,hare,⟨hino,h.flags.posted,h.flags.completed,h.flags.cleaned,h.flags.unfinished⟩,
    ⟨hino,fun r hr => ?_,by simp⟩,by simp,rfl,rfl⟩
  rw [mem_singleton.mp hr]

theorem Receives.arrive (h : Receives parts id ni m) (hpar : Parts layout parts)
    {p : IncomingPacket β} (hq : m.pwq.packetQueue = [p]) (harr : p.arrived=false)
    (hget : parts[p.chunk]? = some data)
    (hask : ∀ pwq ∈ m.pwq.arriveData p.chunk data, asked layout pwq offers = true) :
    ∃ ni' m', ni.arrive 0 p.chunk data offers = some ni' ∧
      ni'.sendPwqDispatch=ni.sendPwqDispatch ∧ Receives parts id ni' m' ∧
      m'.pwq.packetQueue = [] ∧ m'.pwq.enqueued.length=m.pwq.enqueued.length := by
  obtain ⟨pwq1,hare,hfla,hopen,hne,hon,henq⟩ := h.open_arrived layout hq harr hget
  obtain ⟨pwq,hrecv,hdra⟩ := hfla.recv_drained hopen hne hpar.sum hpar.layout (hask pwq1 hare)
  have hp : m.pwq.Proceeds pwq := by
    have hp1 := proceeds_recv hrecv
    obtain ⟨-,rfl⟩ := ite_some_none_eq_some.mp hare
    exact ⟨hp1.allocated,hp1.done,hp1.finished,hp1.cleaned⟩
  obtain ⟨ni',hupd,hsm,hrec⟩ := h.update hp hdra.reassembling.flags
    (hdra.onDevice.trans (hon.trans h.quiet)) m.attached
  refine ⟨ni',_,?_,hsm,hrec,hdra.packetQueue,?_⟩
  · rw [NativeInterface.arrive,h.get,bind_some,hare,bind_some,hrecv,bind_some]
    exact hupd
  · simp [hdra.enqueued,henq]

end NativeInterface

variable {β : Type*}

namespace Transfer

variable {queue parts : List (List β)} {layout : List ℕ} {id : MsgId} {t t' : Transfer β} {c : Chunk β}
  {offers : List ℕ}

/-- The message at the target waits for the next chunk, or for the data of the last one. -/
def Waits (parts : List (List β)) (awaiting : Option (Cookie × List β)) (m : Message β) : Prop :=
  (awaiting = none ∧ m.pwq.packetQueue = []) ∨
    ∃ p data, awaiting = some (.packet 0 p.chunk, data) ∧ m.pwq.packetQueue = [p] ∧
      p.arrived = false ∧ parts[p.chunk]? = some data

/-- A message that is sent and received in chunks. -/
structure Chunked (queue parts : List (List β)) (id : MsgId) (t : Transfer β) : Prop where
  sending : SendPWQ.Sending queue t.sender
  labelled : SendPWQ.Labelled id.connectionId id.pwqMsgId t.sender
  dispatchId : t.target.sendPwqDispatch = id.dispatchId
  dispatched : t.dispatched ≤ t.sender.chunks.length
  target : (t.dispatched = 0 ∧ t.awaiting = none ∧ t.target.messages = [] ∧ t.target.direct = [] ∧ t.target.Tabled) ∨
    ∃ m, t.target.Receives parts id m ∧ m.pwq.enqueued.length = t.dispatched ∧ Waits parts t.awaiting m

structure Receivable (layout : List ℕ) (queue parts : List (List β)) : Prop where
  fits : Fits tmpbufSize queue
  parts_eq : parts = packs tmpbufSize queue.length queue
  parts : Parts layout parts

theorem Chunked.msgId_eq (h : Chunked queue parts id t) (hc : t.sender.chunks[t.dispatched]? = some c) :
    t.msgId id.origin c = id := by
  obtain ⟨hcnn,hmes⟩ := h.labelled.chunks c (mem_of_getElem? hc)
  rw [Transfer.msgId,h.dispatchId,hcnn,hmes]

section

variable (h : Chunked queue parts id t) (hr : Receivable layout queue parts)
include h hr

theorem Chunked.get (hc : t.sender.chunks[t.dispatched]? = some c) : parts[t.dispatched]? = some c.data := by
  rw [hr.parts_eq]
  exact h.sending.packs_get hr.fits hc

theorem Chunked.dispatched_lt (hc : t.sender.chunks[t.dispatched]? = some c) : t.dispatched<2^28 :=
  (List.getElem?_eq_some_iff.mp (h.get hr hc)).1.trans_le hr.parts.count

section

variable (hawa : t.awaiting = none) (hc : t.sender.chunks[t.dispatched]? = some c)
include hawa hc

theorem Chunked.found_eq : ∃ ni m, t.found layout id.origin c = (ni, 0) ∧ ni.sendPwqDispatch=id.dispatchId ∧
      ni.Receives parts id m ∧ m.pwq.packetQueue = [] ∧ m.pwq.enqueued.length=t.dispatched := by
  rw [found,h.msgId_eq hc]
  obtain ⟨hdir,hdih⟩ := t.target.findMessage_frame id (localRecv layout)
  obtain ⟨hzr,-,hmss,hnn,htab⟩ | ⟨m,hrec,hlen,hwai⟩ := h.target
  · obtain ⟨hnew,hinx⟩ := htab.findMessage_new hmss id (localRecv layout)
    refine ⟨_,_,Prod.ext rfl hinx,hdih.trans h.dispatchId,⟨hnew,hdir.trans hnn,
      (htab.findMessage id (localRecv layout)).1,rfl,rfl,?_,rfl⟩,rfl,hzr.symm⟩
    have hfla := (reassembling_new parts).flags
    rw [← hr.parts.sum] at hfla
    exact hfla
  · obtain ⟨-,hemp⟩ | ⟨p,data,hso,-⟩ := hwai
    · have hget := h.get hr hc
      rw [← hlen] at hget
      have hfind := hrec.tabled.findMessage_eq hrec.get hrec.myMap
        (hrec.allocated hr.parts hemp hget) (localRecv layout)
      rw [hrec.created] at hfind
      exact ⟨_,m,hfind,h.dispatchId,hrec,hemp,hlen⟩
    · simp [hso] at hawa

omit hawa hc in
theorem Chunked.step_target (hc : t.sender.chunks[t.dispatched]? = some c) (p : Payload β) (offers : List ℕ) :
    c.header.contig=0 ∧ c.header.seqNo.toNat=t.dispatched ∧
      t.target.step (.sendPwq id.origin c.header p (localRecv layout) offers) =
        (t.found layout id.origin c).1.attach (t.found layout id.origin c).2 id c.header.seqNo p
          offers := by
  have hlt := h.dispatched_lt hr hc
  have hnum := h.sending.pwqSeqNo hc
  have hcon := contig_ofNat hnum hlt
  refine ⟨hcon,seqNo_ofNat hnum hlt,?_⟩
  have hid : (⟨id.origin,t.target.sendPwqDispatch,c.header.connectionId,c.header.pwqMsgId⟩ : MsgId)=id :=
    h.msgId_eq hc
  rw [found,h.msgId_eq hc]
  simp only [NativeInterface.step,NativeInterface.dispatchSendPwq,hcon,ne_eq,not_true_eq_false,
    if_false,hid,NativeInterface.receiveChunk]

theorem Chunked.dispatch_inside (hask : t.askedInDispatch layout id.origin c (.data c.data) offers = true) :
    ∃ t', t.dispatch layout id.origin .inside offers = some t' ∧ Chunked queue parts id t' ∧
      t'.sender=t.sender ∧ t'.dispatched=t.dispatched+1 ∧ t'.awaiting=none := by
  obtain ⟨hcon,hseq,hsp⟩ := h.step_target hr hc (.data c.data) offers
  obtain ⟨ni,m,hfou,hdid,hrec,hemp,hlen⟩ := h.found_eq hr hawa hc
  have hget := h.get hr hc
  rw [← hlen] at hget hseq
  rw [hfou] at hsp
  have hask' : asked layout (m.pwq.enqueuePacket c.header.seqNo.toNat c.data true) offers=true := by
    simpa [askedInDispatch,hfou,hrec.get] using hask
  obtain ⟨ni',m',hatt,hsm,hrec',hemp',hlen'⟩ := hrec.attach_data hr.parts hemp hget hseq hask'
  refine ⟨{ t with target := ni', dispatched := t.dispatched+1, awaiting := none },?_,⟨h.sending,
    h.labelled,hsm.trans hdid,(List.getElem?_eq_some_iff.mp hc).1,
    .inr ⟨m',hrec',by rw [hlen',hlen],.inl ⟨rfl,hemp'⟩⟩⟩,rfl,rfl,rfl⟩
  simp [dispatch,hawa,hc,Delivery.payload,hcon,hask,hsp,hatt,awaits]

theorem Chunked.dispatch_later {buffer : List β} (hbuf : buffer.length=c.data.length) :
    ∃ t', t.dispatch layout id.origin (.later buffer) [] = some t' ∧ Chunked queue parts id t' := by
  obtain ⟨hcon,hseq,hsp⟩ := h.step_target hr hc (.recv buffer) []
  obtain ⟨ni,m,hfou,hdid,hrec,hemp,hlen⟩ := h.found_eq hr hawa hc
  have hget := h.get hr hc
  rw [← hlen] at hget
  rw [hfou] at hsp
  obtain ⟨ni',m',hatt,hsm,hrec',⟨p,hq,harr,hchu⟩,hlen'⟩ :=
    hrec.attach_recv hr.parts hemp hget (hseq.trans hlen.symm) hbuf []
  have hask : t.askedInDispatch layout id.origin c (.recv buffer) []=true := by
    simp [askedInDispatch,hfou,hrec.get]
  refine ⟨{ t with
      target := ni', dispatched := t.dispatched+1, awaiting := some (.packet 0 t.dispatched, c.data) },
    ?_,h.sending,h.labelled,hsm.trans hdid,(List.getElem?_eq_some_iff.mp hc).1,
    .inr ⟨m',hrec',by rw [hlen',hlen],.inr ⟨p,c.data,?_,hq,harr,?_⟩⟩⟩
  · simp [dispatch,hawa,hc,Delivery.payload,hbuf,hcon,hask,hsp,hatt,awaits,hfou,hseq]
  · rw [hchu,hlen]
  · rw [hchu]
    exact hget

end

theorem Chunked.dispatch {d : Delivery β} (hs : t.dispatch layout id.origin d offers = some t') :
    Chunked queue parts id t' := by
  obtain ⟨hawa,c,p,-,hc,hp,hask,-⟩ := dispatch_some hs
  replace hask := hask (h.step_target hr hc p offers).1
  cases d with
  | inside =>
    obtain rfl := some.inj hp
    obtain ⟨t1,ht1,hchn,-⟩ := h.dispatch_inside hr hawa hc hask
    obtain rfl := some.inj (ht1.symm.trans hs)
    exact hchn
  | later buffer =>
    obtain ⟨hlen,rfl⟩ := ite_some_none_eq_some.mp hp
    obtain ⟨ni,m,hfou,-,hrec,-⟩ := h.found_eq hr hawa hc
    have hnil : offers = [] := by simpa [askedInDispatch,hfou,hrec.get] using hask
    rw [hnil] at hs
    obtain ⟨t1,ht1,hchn⟩ := h.dispatch_later hr hawa hc hlen
    obtain rfl := some.inj (ht1.symm.trans hs)
    exact hchn
  | null =>
    obtain ⟨hnil,-⟩ := ite_none_right_eq_some.mp hp
    have hne := hr.parts.nonempty c.data (mem_of_getElem? (h.get hr hc))
    exact absurd (List.isEmpty_iff.mp hnil) hne

theorem Chunked.arrive_packet {m : Message β} (hrec : t.target.Receives parts id m)
    (hlen : m.pwq.enqueued.length=t.dispatched) {p : IncomingPacket β} {data : List β}
    (hawa : t.awaiting = some (.packet 0 p.chunk, data)) (hq : m.pwq.packetQueue = [p])
    (harr : p.arrived=false) (hget : parts[p.chunk]? = some data)
    (hask : ∀ pwq ∈ m.pwq.arriveData p.chunk data, asked layout pwq offers = true) :
    ∃ t', t.arrive layout offers = some t' ∧ Chunked queue parts id t' ∧ t'.awaiting=none := by
  obtain ⟨ni',m',hare,hsm,hrec',hemp',hlen'⟩ := hrec.arrive hr.parts hq harr hget hask
  refine ⟨{ t with target := ni', awaiting := none },?_,⟨h.sending,h.labelled,
    hsm.trans h.dispatchId,h.dispatched,
    .inr ⟨m',hrec',hlen'.trans hlen,.inl ⟨rfl,hemp'⟩⟩⟩,rfl⟩
  have hgua : (t.target.messages[0]?.all fun m => (m.pwq.arriveData p.chunk data).all fun pwq =>
      asked layout pwq offers)=true := by
    rw [hrec.get,all_some]
    cases hso : m.pwq.arriveData p.chunk data with
    | none => rfl
    | some pwq => exact hask pwq hso
  simp only [Transfer.arrive,hawa,if_pos hgua,NativeInterface.step,hare,map_some]

theorem Chunked.arrive (hs : t.arrive layout offers = some t') : Chunked queue parts id t' := by
  obtain ⟨-,hnn,-⟩ | ⟨m,hrec,hlen,hnn | ⟨p,data,hawa,hq,harr,hget⟩⟩ := h.target
  · simp [Transfer.arrive,hnn] at hs
  · simp [Transfer.arrive,hnn.1] at hs
  · have hask : ∀ pwq ∈ m.pwq.arriveData p.chunk data, asked layout pwq offers=true := by
      intro pwq hpwq
      simp only [Transfer.arrive,hawa] at hs
      obtain ⟨hgua,-⟩ := ite_none_right_eq_some.mp hs
      rw [hrec.get,all_some,hpwq,all_some] at hgua
      exact hgua
    obtain ⟨t1,ht1,hchn,-⟩ := h.arrive_packet hr hrec hlen hawa hq harr hget hask
    obtain rfl := some.inj (ht1.symm.trans hs)
    exact hchn

theorem Chunked.step {e : TransferEvent β} (hs : t.step layout id.origin e = some t') :
    Chunked queue parts id t' := by
  cases e with
  | send e =>
    obtain ⟨sender,hsen,rfl⟩ := map_eq_some_iff.mp hs
    exact ⟨h.sending.step hsen,h.labelled.step hsen,h.dispatchId,
      h.dispatched.trans (SendPWQ.chunks_step hsen).length_le,h.target⟩
  | dispatch d offers => exact h.dispatch hr hs
  | arrive offers => exact h.arrive hr hs
  | work i offers =>
    obtain ⟨-,hs⟩ := ite_none_right_eq_some.mp hs
    obtain ⟨ni,hwr,rfl⟩ := map_eq_some_iff.mp hs
    obtain ⟨m,hm,hwr⟩ := bind_eq_some_iff.mp hwr
    obtain ⟨hon,-⟩ := ite_none_right_eq_some.mp hwr
    obtain ⟨-,-,hnil,-⟩ | ⟨m',hrec,-⟩ := h.target
    · simp [hnil] at hm
    · rw [hrec.messages] at hm
      obtain ⟨rfl,rfl⟩ : i=0 ∧ m'=m := by
        cases i with
        | zero => simpa using hm
        | succ i => simp at hm
      simp [hrec.quiet] at hon

end

variable {queue parts : List (List β)} {layout : List ℕ} {id : MsgId} {t t' : Transfer β}
  {c : Chunk β} {m : Message β}

theorem Receivable.flatten_eq (hr : Receivable layout queue parts) : parts.flatten=queue.flatten := by
  rw [hr.parts_eq]
  exact hr.fits.packs_flatten le_rfl

section

variable (h : Chunked queue parts id t) (hr : Receivable layout queue parts)
include h hr

theorem Chunked.dispatches (hawa : t.awaiting=none) (hc : t.sender.chunks[t.dispatched]? = some c) :
    ∃ offers t', t.step layout id.origin (.dispatch .inside offers) = some t' ∧ Chunked queue parts id t' ∧
      t'.sender=t.sender ∧ t'.dispatched=t.dispatched+1 ∧ t'.awaiting=none := by
  obtain ⟨ni,m,hfou,-,hrec,hemp,hlen⟩ := h.found_eq hr hawa hc
  have hseq := (h.step_target hr hc (.data c.data) []).2.1
  have hget := h.get hr hc
  rw [← hlen] at hget hseq
  obtain ⟨-,hopen⟩ := hrec.open_enqueued hr.parts hemp hget
  obtain ⟨offers,hoff⟩ := hopen.exists_asked (by simp [enqueuePacket]) hr.parts.sum hr.parts.layout
  have hask : t.askedInDispatch layout id.origin c (.data c.data) offers=true := by
    simpa [askedInDispatch,hfou,hrec.get,hseq] using hoff
  obtain ⟨t',ht',hrs⟩ := h.dispatch_inside hr hawa hc hask
  exact ⟨offers,t',ht',hrs⟩

theorem Chunked.arrives (hso : t.awaiting≠none) :
    ∃ offers t', t.step layout id.origin (.arrive offers) = some t' ∧
      Chunked queue parts id t' ∧ t'.awaiting=none := by
  obtain ⟨-,hnn,-⟩ | ⟨m,hrec,hlen,⟨hnn,-⟩ | ⟨p,data,hawa,hq,harr,hget⟩⟩ := h.target
  · exact absurd hnn hso
  · exact absurd hnn hso
  · obtain ⟨pwq,hare,-,hopen,hne,-⟩ := hrec.open_arrived layout hq harr hget
    obtain ⟨offers,hoff⟩ := hopen.exists_asked hne hr.parts.sum hr.parts.layout
    have hask : ∀ pwq' ∈ m.pwq.arriveData p.chunk data, asked layout pwq' offers=true := by
      intro pwq' hpwq'
      obtain rfl := some.inj (hare.symm.trans hpwq')
      exact hoff
    obtain ⟨t',ht',hrs⟩ := h.arrive_packet hr hrec hlen hawa hq harr hget hask
    exact ⟨offers,t',ht',hrs⟩

omit h hr in
theorem received (hrec : t.target.Receives parts id m) :
    t.written=m.pwq.produced ∧ t.done=m.pwq.done := by
  simp [written,done,hrec.messages,hrec.direct]

theorem Chunked.complete (hne : queue.flatten ≠ []) (hend : t.Ended) :
    t.written=queue.flatten ∧ t.done=1 := by
  obtain ⟨hunf,hdis,hawa⟩ := hend
  have hall : t.sender.chunks.length=parts.length := by
    rw [hr.parts_eq,← h.sending.chunks_end hr.fits hunf,length_map]
  obtain ⟨hzr,-⟩ | ⟨m,hrec,hlen,⟨-,hemp⟩ | ⟨p,data,hso,-⟩⟩ := h.target
  · have hnil : parts = [] := eq_nil_of_length_eq_zero (by omega)
    exact absurd (by rw [← hr.flatten_eq,hnil,flatten_nil]) hne
  · obtain ⟨hwri,hdn⟩ := received hrec
    have hino := hrec.flags.inOrder
    have hcou := hino.count
    have hpro := hino.produced
    rw [hemp,length_nil,add_zero] at hcou
    rw [hemp,headOffset,take_zero,append_nil,take_of_length_le (by omega)] at hpro
    have htot := hino.produced_all.mp hpro
    have hcle := (hrec.flags.cleaned htot).resolve_left (by rwa [hr.flatten_eq])
    refine ⟨by rw [hwri,hpro,hr.flatten_eq],?_⟩
    rw [hdn,hrec.flags.completed,hcle]
    rfl
  · simp [hso] at hawa

theorem Chunked.delivered (hne : queue.flatten ≠ []) : t.Delivered layout id.origin queue.flatten := by
  have hdsp : t.awaiting=none → ∀ c ∈ t.sender.chunks[t.dispatched]?, ∀ d : Delivery β,
      (d.payload c.data).isSome → ∃ offers t', t.step layout id.origin (.dispatch d offers) = some t' := by
    intro hawa c hc d hd
    cases d with
    | inside =>
      obtain ⟨offers,t',ht',-⟩ := h.dispatches hr hawa hc
      exact ⟨offers,t',ht'⟩
    | later buffer =>
      have hlen : buffer.length=c.data.length := by simpa [Delivery.payload] using hd
      obtain ⟨t',ht',-⟩ := h.dispatch_later hr hawa hc hlen
      exact ⟨[],t',ht'⟩
    | null =>
      have hnil : c.data = [] := by simpa [Delivery.payload] using hd
      exact absurd hnil (hr.parts.nonempty c.data (mem_of_getElem? (h.get hr hc)))
  have hars : t.awaiting.isSome → ∃ offers t', t.step layout id.origin (.arrive offers) = some t' := by
    intro hso
    obtain ⟨offers,t',ht',-⟩ := h.arrives hr fun hnn => by simp [hnn] at hso
    exact ⟨offers,t',ht'⟩
  obtain ⟨-,-,hmss,hdir,-⟩ | ⟨m,hrec,-⟩ := h.target
  · have hwri : t.written = [] := by simp [written,hmss,hdir]
    have hdn : t.done=0 := by simp [done,hmss,hdir]
    refine ⟨by simp [hmss,hdir],by simp [hwri],by omega,by omega,hdsp,hars,
      fun i m hm => by simp [hmss] at hm,h.complete hr hne⟩
  · obtain ⟨hwri,hdn⟩ := received hrec
    have hcom := hrec.flags.completed
    refine ⟨by simp [hrec.messages,hrec.direct],?_,?_,fun hone => ?_,hdsp,hars,
      fun i m' hm' hon => ?_,h.complete hr hne⟩
    · rw [hwri,← hr.flatten_eq]
      exact hrec.flags.inOrder.isPrefix
    · rw [hdn,hcom]
      split <;> omega
    · rw [hdn,hcom] at hone
      have hall : m.pwq.allocated=false := by simpa using hone
      rw [hwri,hrec.flags.inOrder.produced_all.mpr (hrec.flags.unfinished hall),hr.flatten_eq]
    · rw [hrec.messages] at hm'
      obtain rfl : m'=m := by simpa using mem_of_getElem? hm'
      simp [hrec.quiet] at hon

omit h hr in
theorem run_send (layout : List ℕ) (origin : ℕ) {sender : SendPWQ β}
    (h : Run SendPWQ.step (fun _ _ => True) t.sender sender) :
    Run (step layout origin) (fun _ _ => True) t { t with sender := sender } := by
  induction h with
  | refl => exact .refl
  | @step s s' e _ _ hs ih =>
    have hsp : Transfer.step layout origin { t with sender := s } (.send e) = some { t with sender := s' } := by
      rw [Transfer.step,hs,map_some]
    exact ih.step trivial hsp

theorem Chunked.run_dispatch (hend : t.sender.unfinished=none) (hawa : t.awaiting=none) :
    ∃ t', Run (Transfer.step layout id.origin) (fun _ _ => True) t t' ∧ t'.Ended := by
  induction hlen : t.sender.chunks.length-t.dispatched generalizing t with
  | zero => exact ⟨t,.refl,hend,by have := h.dispatched; omega,hawa⟩
  | succ n ih =>
    have hc := List.getElem?_eq_getElem (show t.dispatched<t.sender.chunks.length by omega)
    obtain ⟨offers,t1,ht1,hchn,hsen,hdis,hnn⟩ := h.dispatches hr hawa hc
    obtain ⟨t',hrun,heed⟩ := ih hchn (by rw [hsen,hend]) hnn (by rw [hsen,hdis]; omega)
    exact ⟨t',(Run.refl.step trivial ht1).trans hrun,heed⟩

theorem Chunked.run_end : ∃ t', Run (Transfer.step layout id.origin) (fun _ _ => True) t t' ∧ t'.Ended := by
  have hstt : ∃ t1, Run (Transfer.step layout id.origin) (fun _ _ => True) t t1 ∧ Chunked queue parts id t1 ∧
      t1.awaiting=none := by
    by_cases hnn : t.awaiting=none
    · exact ⟨t,.refl,h,hnn⟩
    · obtain ⟨offers,t1,ht1,hchn,hnn1⟩ := h.arrives hr hnn
      exact ⟨t1,Run.refl.step trivial ht1,hchn,hnn1⟩
  obtain ⟨t1,hrun1,h1,hnn⟩ := hstt
  obtain ⟨sender,hsd,-,hend⟩ := SendPWQ.reach_end h1.sending hr.fits
  have hrun2 := run_send layout id.origin hsd
  have h2 : Chunked queue parts id { t1 with sender := sender } :=
    hrun2.invariant h1 fun _ _ _ hs _ hsp => hs.step hr hsp
  obtain ⟨t',hrun3,heed⟩ := h2.run_dispatch hr hend hnn
  exact ⟨t',(hrun1.trans hrun2).trans hrun3,heed⟩

end

end Transfer

end PAMI.Pwq
