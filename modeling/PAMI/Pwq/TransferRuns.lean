import PAMI.Pwq.TransferDelivered
import PAMI.Pwq.TransferLimits

namespace PAMI.Pwq

open PAMI.Math List Option

variable {β : Type*}

namespace Transfer

variable {message : List β} {layout : List ℕ} {origin : ℕ} {t t' : Transfer β} {queue : List (List β)}
  {d : Delivery β} {p : Payload β} {c : Chunk β}

/-- The one receive at the target of a contiguous message, before and after its dispatch. -/
inductive Received (message : List β) (t : Transfer β) : Prop where
  | before (hdis : t.dispatched = 0) (hawa : t.awaiting = none) (hdir : t.target.direct = [])
  | awaited (hdis : t.dispatched = 1) (hawa : t.awaiting = some (.direct 0, message))
      (hdir : ∃ id, t.target.direct = [⟨id, message.length, [], 0⟩])
  | after (hdis : t.dispatched = 1) (hawa : t.awaiting = none)
      (hdir : ∃ id n, t.target.direct = [⟨id, n, message, 1⟩])

/-- A message that is sent in one piece. -/
structure Whole (message : List β) (t : Transfer β) : Prop where
  chunk : ∃ c, t.sender.chunks = [c] ∧ c.data = message ∧ c.header.contig ≠ 0
  total : t.sender.totalSndln = 0
  notPosted : t.sender.workPosted = false
  messages : t.target.messages = []
  received : Received message t

theorem bufferToConsume_eq (hq : ∀ b ∈ queue, b ≠ [])
    (hcon : queue.flatten.length ≤ bytesAvailableToConsume queue) :
    bufferToConsume queue = queue.flatten := by
  cases queue with
  | nil => rfl
  | cons b q =>
    cases q with
    | nil => simp [bufferToConsume]
    | cons c q =>
      have hpos := length_pos_of_ne_nil (hq c (by simp))
      simp only [flatten_cons,length_append,bytesAvailableToConsume] at hcon
      omega

theorem whole_sendPWQ (immSendSize headerLength : ℕ) (connectionId pwqMsgId : BitVec 32)
    (sendPwqDispatch mcastDispatch : ℕ) (hq : ∀ b ∈ queue, b ≠ [])
    (hcon : queue.flatten.length ≤ bytesAvailableToConsume queue) :
    Whole queue.flatten (sendPWQ immSendSize headerLength connectionId pwqMsgId queue sendPwqDispatch
      mcastDispatch) := by
  have hsen : ∃ s, SendPWQ.simplePWQ immSendSize headerLength connectionId pwqMsgId
      queue.flatten.length queue=s ∧
      s.chunks = [⟨⟨connectionId,pwqMsgId,contigFlag⟩,false,bufferToConsume queue⟩] ∧
      s.totalSndln=0 ∧ s.workPosted=false := by
    refine ⟨_,rfl,?_⟩
    rw [SendPWQ.simplePWQ,if_pos hcon]
    simp only
    split <;> exact ⟨rfl,rfl,rfl⟩
  obtain ⟨s,hs,hchu,htot,hpst⟩ := hsen
  rw [sendPWQ,hs]
  exact ⟨⟨_,hchu,bufferToConsume_eq hq hcon,contig_contigFlag rfl⟩,htot,hpst,rfl,.before rfl rfl rfl⟩

def awaitsDirect (k : ℕ) (data : List β) : Payload β → Option (Cookie × List β)
  | .recv _ => some (.direct k, data)
  | _ => none

theorem awaits_eq (hcon : c.header.contig≠0) (p : Payload β) :
    t.awaits layout origin c p = awaitsDirect t.target.direct.length c.data p := by
  cases p with
  | data bytes => rfl
  | recv buffer => exact if_pos hcon
  | neither => rfl

theorem Whole.step_target (layout : List ℕ) (origin : ℕ) (h : Whole message t)
    (hdis : t.dispatched=0) (hp : d.payload message = some p) (offers : List ℕ)
    (hawa : t.awaiting=none) :
    ∃ id, t.dispatch layout origin d offers = (t.target.receiveContig id p (localRecv layout)).map fun ni =>
      { t with
        target := ni
        dispatched := 1
        awaiting := awaitsDirect t.target.direct.length message p } := by
  obtain ⟨c,hchu,hda,hcon⟩ := h.chunk
  refine ⟨⟨origin,t.target.sendPwqDispatch,c.header.connectionId,c.header.pwqMsgId⟩,?_⟩
  have hc : t.sender.chunks[t.dispatched]? = some c := by rw [hchu,hdis]; rfl
  have hsp : t.target.step (.sendPwq origin c.header p (localRecv layout) offers) =
      t.target.receiveContig ⟨origin,t.target.sendPwqDispatch,c.header.connectionId,c.header.pwqMsgId⟩ p
        (localRecv layout) := by
    simp only [NativeInterface.step,NativeInterface.dispatchSendPwq,if_pos hcon]
  rw [dispatch,if_neg (by simp [hawa]),hc,bind_some,hda,hp,bind_some,
    if_neg fun h => hcon h.1,hsp,hdis,awaits_eq hcon,hda]

theorem receiveContig_eq (ni : NativeInterface β) (hp : d.payload message = some p)
    (hle : message.length ≤ availableAt layout 0) (id : MsgId) :
    ∃ n written done, ni.receiveContig id p (localRecv layout) =
        some { ni with direct := ni.direct ++ [⟨id,n,written,done⟩] } ∧
      ((awaitsDirect ni.direct.length message p = none ∧ written=message ∧ done=1) ∨
        (awaitsDirect ni.direct.length message p = some (.direct ni.direct.length, message) ∧
          n=message.length ∧ written = [] ∧ done=0)) := by
  cases d with
  | inside =>
    obtain rfl := some.inj hp
    cases message with
    | nil => exact ⟨0,[],1,rfl,.inl ⟨rfl,rfl,rfl⟩⟩
    | cons b message => exact ⟨(b :: message).length,b :: message,1,if_pos hle,.inl ⟨rfl,rfl,rfl⟩⟩
  | later buffer =>
    obtain ⟨hlen,rfl⟩ := ite_some_none_eq_some.mp hp
    exact ⟨buffer.length,[],0,if_pos (hlen.trans_le hle),.inr ⟨rfl,hlen,rfl,rfl⟩⟩
  | null =>
    obtain ⟨hnil,rfl⟩ := ite_some_none_eq_some.mp hp
    obtain rfl := List.isEmpty_iff.mp hnil
    exact ⟨0,[],1,rfl,.inl ⟨rfl,rfl,rfl⟩⟩

theorem Whole.dispatch (origin : ℕ) (h : Whole message t) (hle : message.length ≤ availableAt layout 0)
    (hdis : t.dispatched=0) (hd : (d.payload message).isSome) (offers : List ℕ)
    (hawa : t.awaiting=none) (hdir : t.target.direct = []) :
    ∃ t', t.dispatch layout origin d offers = some t' ∧ Whole message t' ∧ t'.dispatched=1 ∧
      t'.sender=t.sender := by
  obtain ⟨p,hp⟩ := isSome_iff_exists.mp hd
  obtain ⟨id,hdih⟩ := h.step_target layout origin hdis hp offers hawa
  obtain ⟨n,written,done,hrcv,hcas⟩ := receiveContig_eq t.target hp hle id
  rw [hrcv,map_some] at hdih
  refine ⟨_,hdih,⟨h.chunk,h.total,h.notPosted,h.messages,?_⟩,rfl,rfl⟩
  rw [hdir] at hcas
  obtain ⟨hnn,rfl,rfl⟩ | ⟨hso,rfl,rfl,rfl⟩ := hcas
  · exact .after rfl (by simpa [hdir] using hnn) ⟨id,n,by simp [hdir]⟩
  · exact .awaited rfl (by simpa [hdir] using hso) ⟨id,by simp [hdir]⟩

theorem Whole.arrive (layout : List ℕ) (h : Whole message t) (hawa : t.awaiting≠none) (offers : List ℕ) :
    ∃ t', t.arrive layout offers = some t' ∧ Whole message t' ∧ t'.awaiting=none ∧
      t'.dispatched=1 ∧ t'.sender=t.sender := by
  cases h.received with
  | before _ hnn | after _ hnn => exact absurd hnn hawa
  | awaited hdis hso hdir =>
    obtain ⟨id,hdir⟩ := hdir
    refine ⟨{ t with
        target := { t.target with direct := [⟨id,message.length,message,1⟩] }, awaiting := none },
      ?_,⟨h.chunk,h.total,h.notPosted,h.messages,.after hdis rfl ⟨id,_,rfl⟩⟩,rfl,
      hdis,rfl⟩
    simp [Transfer.arrive,hso,NativeInterface.step,NativeInterface.arriveDirect,hdir]

theorem Whole.chunk_get (h : Whole message t) (hc : t.sender.chunks[t.dispatched]? = some c) :
    t.dispatched=0 ∧ c.data=message := by
  obtain ⟨c',hchu,hda,-⟩ := h.chunk
  rw [hchu] at hc
  cases hdis : t.dispatched with
  | zero =>
    rw [hdis] at hc
    obtain rfl := some.inj hc
    exact ⟨rfl,hda⟩
  | succ n => simp [hdis] at hc

theorem Whole.fresh (h : Whole message t) (hdis : t.dispatched=0) :
    t.awaiting=none ∧ t.target.direct = [] := by
  cases h.received with
  | before _ hawa hdir => exact ⟨hawa,hdir⟩
  | awaited hone | after hone => omega

theorem Whole.send {e : SendEvent} {sender : SendPWQ β} (h : Whole message t)
    (hs : t.sender.step e = some sender) :
    Whole message { t with sender := sender } ∧ sender.unfinished=none := by
  cases e with
  | work =>
    obtain ⟨hpst,-⟩ := ite_none_right_eq_some.mp hs
    simp [h.notPosted] at hpst
  | chunkDone =>
    obtain ⟨c,-,rfl⟩ := map_eq_some_iff.mp hs
    have hrec : ∀ s, Received message t → Received message { t with sender := s } := by
      intro s hr
      cases hr with
      | before h1 h2 h3 => exact .before h1 h2 h3
      | awaited h1 h2 h3 => exact .awaited h1 h2 h3
      | after h1 h2 h3 => exact .after h1 h2 h3
    simp only [if_pos h.total]
    exact ⟨⟨h.chunk,h.total,h.notPosted,h.messages,hrec _ h.received⟩,trivial⟩

section

variable (h : Whole message t) (hle : message.length ≤ availableAt layout 0)
include h hle

theorem Whole.step {e : TransferEvent β} (hs : t.step layout origin e = some t') : Whole message t' := by
  cases e with
  | send e =>
    obtain ⟨sender,hsen,rfl⟩ := map_eq_some_iff.mp hs
    exact (h.send hsen).1
  | dispatch d offers =>
    obtain ⟨-,c,p,-,hc,hp,-⟩ := dispatch_some hs
    obtain ⟨hzr,rfl⟩ := h.chunk_get hc
    obtain ⟨hawa,hdir⟩ := h.fresh hzr
    obtain ⟨t1,ht1,hwho,-⟩ := h.dispatch origin hle hzr (by rw [hp]; rfl) offers hawa hdir
    obtain rfl := some.inj (ht1.symm.trans hs)
    exact hwho
  | arrive offers =>
    have hawa : t.awaiting≠none := by
      intro hnn
      simp [Transfer.step,Transfer.arrive,hnn] at hs
    obtain ⟨t1,ht1,hwho,-⟩ := h.arrive layout hawa offers
    obtain rfl := some.inj (ht1.symm.trans hs)
    exact hwho
  | work i offers => simp [Transfer.step,Transfer.work,NativeInterface.step,NativeInterface.work,h.messages] at hs

theorem Whole.delivered : t.Delivered layout origin message := by
  have hdsp : t.awaiting=none → ∀ c ∈ t.sender.chunks[t.dispatched]?, ∀ d : Delivery β,
      (d.payload c.data).isSome → ∃ offers t', t.step layout origin (.dispatch d offers) = some t' := by
    intro hawa c hc d hd
    obtain ⟨hzr,rfl⟩ := h.chunk_get hc
    obtain ⟨t',ht',-⟩ := h.dispatch origin hle hzr hd [] hawa (h.fresh hzr).2
    exact ⟨[],t',ht'⟩
  have hars : t.awaiting.isSome → ∃ offers t', t.step layout origin (.arrive offers) = some t' := by
    intro hso
    obtain ⟨t',ht',-⟩ := h.arrive layout (fun hnn => by simp [hnn] at hso) []
    exact ⟨[],t',ht'⟩
  have heed : t.Ended → t.dispatched=1 ∧ t.awaiting=none := by
    intro hend
    obtain ⟨-,hdis,hawa⟩ := hend
    obtain ⟨c,hchu,-⟩ := h.chunk
    exact ⟨by rw [hdis,hchu]; rfl,hawa⟩
  have hwor : ∀ i, ∀ m ∈ t.target.messages[i]?, m.pwq.onDevice=true →
      ∃ offers t', t.step layout origin (.work i offers) = some t' := by
    intro i m hm
    simp [h.messages] at hm
  cases h.received with
  | before hzr _ hdir =>
    have hwri : t.written = [] := by simp [written,h.messages,hdir]
    have hdn : t.done=0 := by simp [done,h.messages,hdir]
    refine ⟨by simp [h.messages,hdir],by simp [hwri],by omega,by omega,hdsp,hars,hwor,fun hend => ?_⟩
    have := (heed hend).1
    omega
  | awaited _ hso hdir =>
    obtain ⟨id,hdir⟩ := hdir
    have hwri : t.written = [] := by simp [written,h.messages,hdir]
    have hdn : t.done=0 := by simp [done,h.messages,hdir]
    refine ⟨by simp [h.messages,hdir],by simp [hwri],by omega,by omega,hdsp,hars,hwor,fun hend => ?_⟩
    simp [(heed hend).2] at hso
  | after _ _ hdir =>
    obtain ⟨id,n,hdir⟩ := hdir
    have hwri : t.written=message := by simp [written,h.messages,hdir]
    have hdn : t.done=1 := by simp [done,h.messages,hdir]
    exact ⟨by simp [h.messages,hdir],by simp [hwri],by omega,fun _ => hwri,hdsp,
      hars,hwor,fun _ => ⟨hwri,hdn⟩⟩

theorem Whole.run_end : ∃ t', Run (Transfer.step layout origin) (fun _ _ => True) t t' ∧ t'.Ended := by
  have hsn : ∃ t1, Run (Transfer.step layout origin) (fun _ _ => True) t t1 ∧ Whole message t1 ∧
      t1.sender.unfinished=none := by
    cases hopen : t.sender.unfinished with
    | none => exact ⟨t,.refl,h,hopen⟩
    | some c =>
      obtain ⟨sender,hsen⟩ : ∃ s, t.sender.step .chunkDone = some s := by
        simp [SendPWQ.step,SendPWQ.chunkDone,hopen]
      obtain ⟨hwho,hnn⟩ := h.send hsen
      have hsp : t.step layout origin (.send .chunkDone) = some { t with sender := sender } := by
        rw [Transfer.step,hsen,map_some]
      exact ⟨_,Run.refl.step trivial hsp,hwho,hnn⟩
  obtain ⟨t1,hrun1,h1,hnn1⟩ := hsn
  have hdis : ∃ t2, Run (Transfer.step layout origin) (fun _ _ => True) t1 t2 ∧
      Whole message t2 ∧ t2.dispatched=1 ∧ t2.sender=t1.sender := by
    cases h1.received with
    | before hzr hawa hdir =>
      obtain ⟨t2,ht2,hwho,hrs⟩ := h1.dispatch (d := .inside) origin hle hzr rfl [] hawa hdir
      exact ⟨t2,Run.refl.step (e := .dispatch .inside []) trivial ht2,hwho,hrs⟩
    | awaited hone | after hone => exact ⟨t1,.refl,h1,hone,rfl⟩
  obtain ⟨t2,hrun2,h2,hone2,hsen2⟩ := hdis
  have heed : ∀ t : Transfer β, Whole message t → t.sender=t1.sender → t.dispatched=1 →
      t.awaiting=none → t.Ended := by
    intro t h hsen hone hawa
    obtain ⟨c,hchu,-⟩ := h.chunk
    exact ⟨by rw [hsen,hnn1],by rw [hone,hchu]; rfl,hawa⟩
  by_cases hawa : t2.awaiting=none
  · exact ⟨t2,hrun1.trans hrun2,heed t2 h2 hsen2 hone2 hawa⟩
  · obtain ⟨t3,ht3,h3,hnn3,hone3,hsen3⟩ := h2.arrive layout hawa []
    have hrun3 : Run (Transfer.step layout origin) (fun _ _ => True) t2 t3 :=
      Run.refl.step (e := .arrive []) trivial ht3
    exact ⟨t3,(hrun1.trans hrun2).trans hrun3,heed t3 h3 (hsen3.trans hsen2) hone3 hnn3⟩

end

theorem Whole.not_delivered (h : Whole message t) (hdis : t.dispatched=0)
    (hlt : availableAt layout 0 < message.length) : ¬ t.Delivered layout origin message := by
  intro hdel
  obtain ⟨c,hchu,hda,-⟩ := h.chunk
  have hc : t.sender.chunks[t.dispatched]? = some c := by rw [hchu,hdis]; rfl
  obtain ⟨offers,t',ht'⟩ := hdel.dispatches (h.fresh hdis).1 c hc .inside rfl
  obtain ⟨id,hsp⟩ := h.step_target layout origin hdis (d := .inside) rfl offers (h.fresh hdis).1
  have hfai : t.target.receiveContig id (.data message) (localRecv layout)=none := by
    cases message with
    | nil => simp at hlt
    | cons b message => exact if_neg (Nat.not_le.mpr hlt)
  rw [hfai,map_none] at hsp
  rw [Transfer.step,hsp] at ht'
  simp at ht'

end Transfer

variable {β : Type*} {layout : List ℕ} {queue : List (List β)}

theorem availableAt_zero (hl : ∀ b ∈ layout, b≠0) : availableAt layout 0 = layout.headD 0 := by
  cases layout with
  | nil => rfl
  | cons b layout => exact if_pos (Nat.pos_of_ne_zero (hl b mem_cons_self))

theorem SendPWQ.Sending.fits {s : SendPWQ β} (h : Sending queue s) (hend : s.unfinished=none) :
    Fits tmpbufSize queue := by
  by_contra hnot
  obtain hpla | ⟨-,hzr,-⟩ := h.place
  · simp [hend] at hpla
  · have hall := congrArg List.length (h.packed 1)
    rw [length_packs_of_not_fits hnot,show s.rest = [] from if_pos hzr,packs_nil,append_nil,length_map] at hall
    omega

namespace Transfer

variable {t start : Transfer β} {origin : ℕ} {message : List β} {id : MsgId} {parts : List (List β)}
  {m : Message β}

theorem Whole.transfers (origin : ℕ) (h : Whole message start) (hle : message.length ≤ availableAt layout 0) :
    Transfers layout origin message start := by
  intro t ht
  have hwho := ht.invariant h fun _ _ _ hs _ hsp => hs.step hle hsp
  exact ⟨hwho.delivered hle,hwho.run_end hle⟩

theorem Chunked.transfers (h : Chunked queue parts id start) (hr : Receivable layout queue parts)
    (hne : queue.flatten ≠ []) : Transfers layout id.origin queue.flatten start := by
  intro t ht
  have hchn := ht.invariant h fun _ _ _ hs _ hsp => hs.step hr hsp
  exact ⟨hchn.delivered hr hne,hchn.run_end hr⟩

theorem receivable (hq : ∀ b ∈ queue, b ≠ []) (hsum : layout.sum=queue.flatten.length)
    (hft : Fits tmpbufSize queue) (hcou : (packs tmpbufSize queue.length queue).length≤2^28)
    (hsma : ∀ b ∈ queue, b.length<2^31) (hlay : ∀ b ∈ layout, b<2^31) :
    Receivable layout queue (packs tmpbufSize queue.length queue) := by
  refine ⟨hft,rfl,hft.packs_ne_nil hq,fun data hda => ?_,hcou,?_,hlay⟩
  · obtain hle | hmem := packs_size data hda
    · exact hle.trans_lt (by decide)
    · exact hsma data hmem
  · rw [hsum,hft.packs_flatten le_rfl]

theorem Counted.received (h : Counted queue t) (hdel : t.Delivered layout origin queue.flatten)
    (hend : t.Ended) (hne : queue.flatten ≠ []) :
    t.sender.chunks.length≤2^28 ∧ ∃ m ∈ t.target.messages, m.pwq.produced=queue.flatten := by
  have hwri := (hdel.complete hend).1
  obtain ⟨hunf,hdis,-⟩ := hend
  have hft := h.sending.fits hunf
  have hpos : 0<t.dispatched := by
    rw [hdis,length_pos_iff]
    intro hnil
    have hall := h.sending.chunks_end hft hunf
    rw [hnil,map_nil] at hall
    apply hne
    rw [← hft.packs_flatten le_rfl,← hall,flatten_nil]
  have hmes := length_pos_iff.mpr (h.messages hpos)
  have hsin := hdel.single
  have hdir : t.target.direct = [] := eq_nil_of_length_eq_zero (by omega)
  obtain ⟨m,hm⟩ := length_eq_one_iff.mp (show t.target.messages.length=1 by omega)
  refine ⟨?_,m,by simp [hm],?_⟩
  · by_contra hmn
    exact h.direct (by omega) hdir
  · simpa [written,hm,hdir] using hwri

theorem Counted.small (h : Counted queue t) (hend : t.Ended) (hft : Fits tmpbufSize queue)
    (hm : m ∈ t.target.messages) (hpro : m.pwq.produced=queue.flatten) :
    ∀ b ∈ queue, b.length<2^31 := by
  obtain ⟨hunf,hdis,-⟩ := hend
  have hchu := h.sending.chunks_end hft hunf
  have hload : queue.flatten.length≤t.target.load := by
    rw [← hpro]
    have hle := single_le_sum (l := t.target.messages.map fun m => m.pwq.load)
      (fun _ _ => Nat.zero_le _) _ (List.mem_map_of_mem hm)
    exact (Nat.le_add_right _ _).trans hle
  have hctd : t.counted=((packs tmpbufSize queue.length queue).map fun d => (toInt d.length).toNat).sum := by
    rw [counted,hdis,take_length,← hchu,List.map_map]
    rfl
  intro b hb
  by_contra hlar
  have hmem := hft.mem_packs hb (lt_of_lt_of_le (by decide) (not_lt.mp hlar)) le_rfl
  have hlt := sum_toInt_lt hmem (not_lt.mp hlar)
  rw [← hctd,hft.packs_flatten le_rfl] at hlt
  have := h.load
  omega

theorem layout_small (hsta : start.target.messages = []) (hsum : layout.sum=queue.flatten.length)
    (hrun : Run (step layout origin) (fun _ _ => True) start t) (hm : m ∈ t.target.messages)
    (hpro : m.pwq.produced=queue.flatten) : ∀ b ∈ layout, b<2^31 := by
  intro b hb
  by_contra hlar
  obtain ⟨pre,post,rfl⟩ := append_of_mem hb
  have hbar : Barrier (pre ++ b :: post) (pre.sum+b-2^31) := barrier_large (not_lt.mp hlar)
  have hbel : Below (pre.sum+b-2^31) t := hrun.invariant (P := Below (pre.sum+b-2^31)) (by simp [Below,hsta])
      fun _ _ _ hs _ hsp => hs.step hbar hsp
  have hle := hbel m hm
  rw [hpro,← hsum,List.sum_append,sum_cons] at hle
  omega

section Start

variable (immSendSize headerLength : ℕ) (connectionId pwqMsgId : BitVec 32)
  (origin sendPwqDispatch mcastDispatch : ℕ)

section

variable (hq : ∀ b ∈ queue, b ≠ []) (hnc : bytesAvailableToConsume queue < queue.flatten.length)
include hq hnc

theorem chunked_sendPWQ (parts : List (List β)) :
    Chunked queue parts ⟨origin,sendPwqDispatch,connectionId,pwqMsgId⟩
      (sendPWQ immSendSize headerLength connectionId pwqMsgId queue sendPwqDispatch mcastDispatch) :=
  ⟨SendPWQ.sending_simplePWQ immSendSize headerLength connectionId pwqMsgId hq hnc,
    SendPWQ.labelled_simplePWQ immSendSize headerLength connectionId pwqMsgId queue.flatten.length queue,
    rfl,Nat.zero_le _,
    .inl ⟨rfl,rfl,rfl,rfl,(NativeInterface.tabled_new sendPwqDispatch mcastDispatch).1⟩⟩

theorem counted_sendPWQ : Counted queue
      (sendPWQ immSendSize headerLength connectionId pwqMsgId queue sendPwqDispatch mcastDispatch) :=
  ⟨SendPWQ.sending_simplePWQ immSendSize headerLength connectionId pwqMsgId hq hnc,Nat.zero_le _,
    Nat.zero_le _,fun hpos => absurd hpos (Nat.lt_irrefl 0),fun hmn => absurd hmn (Nat.not_lt_zero _)⟩

end

/-- A message is transferred exactly if its one block fits into the first block of the receive queue, or all of its blocks but
the last fit into the temporary buffer, and the numbers of chunks and the blocks stay in their ranges. -/
theorem transfers_iff (hq : ∀ b ∈ queue, b ≠ []) (hl : ∀ b ∈ layout, b ≠ 0)
    (hsum : layout.sum = queue.flatten.length) :
    Transfers layout origin queue.flatten
        (sendPWQ immSendSize headerLength connectionId pwqMsgId queue sendPwqDispatch mcastDispatch) ↔
      if queue.flatten.length ≤ bytesAvailableToConsume queue then
        queue.flatten.length ≤ layout.headD 0
      else Fits tmpbufSize queue ∧ (packs tmpbufSize queue.length queue).length ≤ 2^28 ∧
        (∀ b ∈ queue, b.length < 2^31) ∧ ∀ b ∈ layout, b < 2^31 := by
  by_cases hcon : queue.flatten.length≤bytesAvailableToConsume queue
  · rw [if_pos hcon,← availableAt_zero hl]
    have hwho := whole_sendPWQ immSendSize headerLength connectionId pwqMsgId sendPwqDispatch
      mcastDispatch hq hcon
    constructor
    · intro htra
      by_contra hlt
      exact hwho.not_delivered rfl (not_le.mp hlt) (htra _ .refl).1
    · exact hwho.transfers origin
  · rw [if_neg hcon]
    have hnc := not_le.mp hcon
    have hne : queue.flatten ≠ [] := length_pos_iff.mp (by omega)
    have hctd := counted_sendPWQ immSendSize headerLength connectionId pwqMsgId sendPwqDispatch
      mcastDispatch hq hnc
    constructor
    · intro htra
      obtain ⟨t,hrun,hend⟩ := (htra _ .refl).2
      have ht := hrun.invariant hctd fun _ _ _ hs _ hsp => hs.step hsp
      obtain ⟨hmn,m,hm,hpro⟩ := ht.received (htra t hrun).1 hend hne
      have hft := ht.sending.fits hend.1
      refine ⟨hft,?_,ht.small hend hft hm hpro,layout_small rfl hsum hrun hm hpro⟩
      rwa [← ht.sending.chunks_end hft hend.1,length_map]
    · intro hcond
      obtain ⟨hft,hcou,hsma,hlay⟩ := hcond
      have hchn := chunked_sendPWQ immSendSize headerLength connectionId pwqMsgId origin
        sendPwqDispatch mcastDispatch hq hnc (packs tmpbufSize queue.length queue)
      exact hchn.transfers (receivable hq hsum hft hcou hsma hlay) hne

end Start

theorem two_blocks_transferred :
    Transfers [2] 0 [1, 2] (sendPWQ 128 64 7 9 [[1], [2]] 3 4) :=
  (transfers_iff 128 64 7 9 0 3 4 (by decide) (by decide) (by decide)).mpr (by decide)

/-- One block is not transferred into two of the same total size: the assertion fails. -/
theorem one_block_stuck : ([1, 1] : List ℕ).sum = [[1, 2]].flatten.length ∧
    ¬ Transfers [1, 1] 0 [1, 2] (sendPWQ 128 64 7 9 [[1, 2]] 3 4) := by
  refine ⟨rfl,fun htra => ?_⟩
  have hwho : Whole [1,2] (sendPWQ 128 64 7 9 [[1,2]] 3 4) :=
    @whole_sendPWQ ℕ [[1,2]] 128 64 7 9 3 4 (by decide) (by decide)
  exact hwho.not_delivered rfl (by decide) (htra _ .refl).1

end Transfer

end PAMI.Pwq
