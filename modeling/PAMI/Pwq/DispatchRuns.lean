import PAMI.Pwq.DispatchTable

namespace PAMI.Pwq

open PAMI.Math List Option

variable {β : Type*}

namespace NativeInterface

variable {ni ni' : NativeInterface β} {i j : ℕ} {m m' : Message β} {pwq : PWQMessage β} {id : MsgId}
  {l : LocalRecv} {p : Payload β} {seqNo : BitVec 32} {offers : List ℕ}

/-- What the states of a receiver say: each message has the chunks of its own, those in progress are told apart by their keys,
and a message is in its match queue exactly as long as `cb_done` has not run, which is at its last byte. -/
structure Separated (ni : NativeInterface β) : Prop where
  attached : ∀ m ∈ ni.messages, ∀ id ∈ m.attached, id = m.created
  keys : ∀ (i j : ℕ) (m m' : Message β), ni.messages[i]? = some m → ni.messages[j]? = some m' → m.myMap = true →
    m'.myMap = true → m.pwq.done = 0 → m'.pwq.done = 0 → m.created.origin = m'.created.origin →
    m.created.dispatchId = m'.created.dispatchId → m.created.key = m'.created.key → i = j
  entry : ∀ i m, ni.messages[i]? = some m → m.myMap = true → (ni.InQueue i m ↔ m.pwq.done = 0)
  once : ∀ m ∈ ni.messages, m.pwq.done ≤ 1
  completed : ∀ m ∈ ni.messages, m.length ≠ 0 → (m.pwq.done = 1 ↔ m.pwq.totalRecvln = 0)

/-- The message that an event brings a chunk of, where it is not contiguous. -/
def chunkId (ni : NativeInterface β) : DispatchEvent β → Option MsgId
  | .sendPwq origin h _ _ _ =>
    if h.contig ≠ 0 then none else some ⟨origin, ni.sendPwqDispatch, h.connectionId, h.pwqMsgId⟩
  | .mcast origin h _ _ _ =>
    if h.contig ≠ 0 then none else some ⟨origin, ni.mcastDispatch, h.connectionId, h.pwqMsgId⟩
  | _ => none

/-- The pair of a message is not mixed up with that of another message in progress. -/
def Apart (ni : NativeInterface β) (id : MsgId) : Prop :=
  ∀ m ∈ ni.messages, m.myMap = true → m.pwq.done = 0 → m.created.origin = id.origin →
    m.created.dispatchId = id.dispatchId →
    Collides m.created.connectionId m.created.pwqMsgId id.connectionId id.pwqMsgId → m.created = id

/-- A chunk, where one comes, is of a message that is not mixed up with another one in progress. -/
def Distinct (ni : NativeInterface β) (e : DispatchEvent β) : Prop := ∀ id ∈ ni.chunkId e, ni.Apart id

def Attached (ni : NativeInterface β) : Prop := ∀ m ∈ ni.messages, ∀ id ∈ m.attached, id = m.created

theorem Tabled.index_eq (h : Tabled ni) (hi : ni.messages[i]? = some m) (hj : ni.messages[j]? = some m')
    (hmap : m.myMap=true) (hmap' : m'.myMap=true) (hall : m.pwq.allocated=true)
    (hall' : m'.pwq.allocated=true) (ho : m.created.origin=m'.created.origin)
    (hd : m.created.dispatchId=m'.created.dispatchId) (hkey : m.created.key=m'.created.key) :
    i=j := by
  obtain ⟨queue,hget,hmem⟩ := h.listed i m hi hmap hall
  obtain ⟨queue',hget',hmem'⟩ := h.listed j m' hj hmap' hall'
  rw [ho,hd,hget'] at hget
  obtain rfl := some.inj hget
  have hsm : m.searchKey=m'.searchKey := by
    rw [(h.sane m (mem_of_getElem? hi)).key,(h.sane m' (mem_of_getElem? hj)).key,hkey]
  exact (MatchQueueElem.mk.inj ((h.unique _ _ _ hget').eq hmem hmem' hsm)).2

theorem Tabled.separated_of_attached (h : Tabled ni) : Separated ni ↔ Attached ni := by
  refine ⟨Separated.attached,fun hatt => ⟨hatt,?_,?_,?_,?_⟩⟩
  · intro i j m m' hi hj hmap hmap' hdn hdn' ho hd hkey
    have hall := (h.sane m (mem_of_getElem? hi)).done_eq_zero.mp hdn
    have hall' := (h.sane m' (mem_of_getElem? hj)).done_eq_zero.mp hdn'
    exact h.index_eq hi hj hmap hmap' hall hall' ho hd hkey
  · intro i m hi hmap
    rw [(h.sane m (mem_of_getElem? hi)).done_eq_zero]
    constructor
    · intro ⟨queue,hget,hmem⟩
      obtain ⟨r,hr⟩ := h.entries _ _ queue hget _ hmem
      obtain rfl := some.inj (hr.get.symm.trans hi)
      exact hr.allocated
    · exact h.listed i m hi hmap
  · intro m hm
    rw [(h.sane m hm).once]
    split <;> omega
  · intro m hm hlen
    rw [(h.sane m hm).done_eq_one]
    exact ⟨(h.sane m hm).finished,(h.sane m hm).cleaned hlen⟩

theorem proceeds_receive {pwq' : PWQMessage β} (h : pwq.receive seqNo p offers = some pwq') :
    pwq.Proceeds pwq' := by
  cases p with
  | data bytes =>
    have hp := PWQMessage.proceeds_recv h
    exact ⟨hp.allocated,hp.done,hp.finished,hp.cleaned⟩
  | recv buffer =>
    obtain rfl := some.inj h
    exact ⟨id,id,id,fun hzr => .inr ⟨hzr,rfl⟩⟩
  | neither => exact PWQMessage.proceeds_recv h

section

variable (h : Tabled ni) (hatt : Attached ni)
include h hatt

theorem Tabled.attach (hm : ni.messages[i]? = some m) (hs : ni.attach i id seqNo p offers = some ni') :
    Tabled ni' ∧ (Attached ni' ↔ m.created=id) := by
  rw [NativeInterface.attach,hm,bind_some] at hs
  obtain ⟨pwq,hpwq,hs⟩ := bind_eq_some_iff.mp hs
  obtain ⟨htab,hmss⟩ := h.update hm (proceeds_receive hpwq) (m.attached ++ [id]) hs
  refine ⟨htab,fun hall => ?_,fun heq m' hm' id' hid' => ?_⟩
  · have hmem : { m with attached := m.attached ++ [id], pwq := pwq } ∈ ni'.messages := by
      rw [hmss]
      exact mem_of_getElem? (List.getElem?_set_self (List.getElem?_eq_some_iff.mp hm).1)
    exact (hall _ hmem id (mem_append_right _ (mem_singleton_self id))).symm
  · rw [hmss] at hm'
    obtain hm' | rfl := mem_or_eq_of_mem_set hm'
    · exact hatt m' hm' id' hid'
    · obtain hid' | hid' := mem_append.mp hid'
      · exact hatt m (mem_of_getElem? hm) id' hid'
      · rw [mem_singleton.mp hid']
        exact heq.symm

theorem Tabled.goes_on (hm : ni.messages[i]? = some m) (hp : m.pwq.Proceeds pwq)
    (hs : ni.update i m pwq = some ni') : Tabled ni' ∧ Attached ni' := by
  obtain ⟨htab,hmss⟩ := h.update hm hp m.attached hs
  refine ⟨htab,fun m' hm' => ?_⟩
  rw [hmss] at hm'
  obtain hm' | rfl := mem_or_eq_of_mem_set hm'
  · exact hatt m' hm'
  · exact hatt m (mem_of_getElem? hm)

omit h hatt in
theorem Attached.concat (hatt : Attached ni) (hm : m.attached = [])
    (hmss : ni'.messages = ni.messages ++ [m]) : Attached ni' := by
  intro m' hm' id hid
  rw [hmss] at hm'
  obtain hm' | hm' := mem_append.mp hm'
  · exact hatt m' hm' id hid
  · obtain rfl := mem_singleton.mp hm'
    simp [hm] at hid

theorem Tabled.receiveChunk (hs : ni.receiveChunk id seqNo p l offers = some ni') :
    Tabled ni' ∧ (Attached ni' ↔ ni.Apart id) := by
  obtain ⟨hfou,m,hm,hmap,hall,ho,hd,hkey,hwhi⟩ := h.findMessage id l
  have hatt' : Attached (ni.findMessage id l).1 := by
    obtain heq | ⟨hmss,-,hnil⟩ := hwhi
    · rw [heq]
      exact hatt
    · exact hatt.concat hnil hmss
  obtain ⟨htab,hiff⟩ := hfou.attach hatt' hm hs
  refine ⟨htab,hiff.trans ⟨fun heq m0 hm0 hmap0 hdn0 ho0 hd0 hcol => ?_,fun hapa => ?_⟩⟩
  · -- a message in progress with the key of the chunk is the one that is found
    obtain ⟨j,hj⟩ := mem_iff_getElem?.mp hm0
    have hj' : (ni.findMessage id l).1.messages[j]? = some m0 := by
      obtain hsm | ⟨hmss,-⟩ := hwhi
      · rw [hsm,hj]
      · rw [hmss,getElem?_concat hj]
    have hinx := hfou.index_eq hj' hm hmap0 hmap ((h.sane m0 hm0).done_eq_zero.mp hdn0) hall
      (ho0.trans ho.symm) (hd0.trans hd.symm) ((searchKey_eq_iff.mpr hcol).trans hkey.symm)
    rw [hinx,hm] at hj'
    rw [← some.inj hj',heq]
  · obtain hsm | ⟨-,hcre,-⟩ := hwhi
    · rw [hsm] at hm
      have hmem := mem_of_getElem? hm
      exact hapa m hmem hmap ((h.sane m hmem).done_eq_zero.mpr hall) ho hd (searchKey_eq_iff.mp hkey)
    · exact hcre

theorem Tabled.receiveContig (hs : ni.receiveContig id p l = some ni') : Tabled ni' ∧ Attached ni' := by
  have hdir : ∀ d, Tabled { ni with direct := ni.direct ++ [d] } ∧
      Attached { ni with direct := ni.direct ++ [d] } := fun d =>
    ⟨⟨h.unique,fun o d' queue hq e he => by
        obtain ⟨r,hr⟩ := h.entries o d' queue hq e he
        exact ⟨r,hr.get,hr.myMap,hr.allocated,hr.origin,hr.dispatchId,hr.key⟩,
      h.listed,h.sane⟩,hatt⟩
  cases p with
  | data bytes =>
    cases bytes with
    | nil =>
      obtain rfl := some.inj hs
      exact hdir _
    | cons b bytes =>
      obtain ⟨avail,-,hs⟩ := bind_eq_some_iff.mp hs
      obtain ⟨-,rfl⟩ := ite_some_none_eq_some.mp hs
      exact hdir _
  | recv buffer =>
    obtain ⟨avail,-,hs⟩ := bind_eq_some_iff.mp hs
    obtain ⟨-,rfl⟩ := ite_some_none_eq_some.mp hs
    exact hdir _
  | neither =>
    obtain rfl := some.inj hs
    exact hdir _

theorem Tabled.receiveAlone
    (hs : (ni.newMessage id l false).attach ni.messages.length id seqNo p offers = some ni') :
    Tabled ni' ∧ Attached ni' := by
  have hatt' : Attached (ni.newMessage id l false) := hatt.concat rfl rfl
  obtain ⟨htab,hiff⟩ := (h.newMessage id l).attach hatt' List.getElem?_concat_length hs
  exact ⟨htab,hiff.mpr rfl⟩

theorem Tabled.step {e : DispatchEvent β} (hs : ni.step e = some ni') :
    Tabled ni' ∧ (Attached ni' ↔ ni.Distinct e) := by
  have hoth : ni.chunkId e=none → Tabled ni' ∧ Attached ni' →
      Tabled ni' ∧ (Attached ni' ↔ ni.Distinct e) := fun hnn hbt =>
    ⟨hbt.1,fun _ => by simp [Distinct,hnn],fun _ => hbt.2⟩
  cases e with
  | sendPwq origin hdr p l offers =>
    simp only [NativeInterface.step,dispatchSendPwq] at hs
    by_cases hcon : hdr.contig≠0
    · rw [if_pos hcon] at hs
      exact hoth (if_pos hcon) (h.receiveContig hatt hs)
    · rw [if_neg hcon] at hs
      simpa only [Distinct,chunkId,if_neg hcon,mem_some_iff,forall_eq'] using h.receiveChunk hatt hs
  | mcast origin hdr p l offers =>
    simp only [NativeInterface.step,dispatchMcast] at hs
    by_cases hcon : hdr.contig≠0
    · rw [if_pos hcon] at hs
      refine hoth (if_pos hcon) ?_
      split at hs
      case isTrue =>
        cases p with
        | data bytes | recv buffer => exact h.receiveAlone hatt hs
        | neither =>
          obtain rfl := some.inj hs
          exact ⟨h.newMessage _ l,hatt.concat rfl rfl⟩
      case isFalse => exact h.receiveContig hatt hs
    · rw [if_neg hcon] at hs
      simpa only [Distinct,chunkId,if_neg hcon,mem_some_iff,forall_eq'] using h.receiveChunk hatt hs
  | arrive i chunk data offers =>
    obtain ⟨m,hm,hrs⟩ := bind_eq_some_iff.mp hs
    obtain ⟨pwq,hpwq,hcall⟩ := bind_eq_some_iff.mp hrs
    obtain ⟨pwq',hpwq',hupd⟩ := bind_eq_some_iff.mp hcall
    obtain ⟨-,rfl⟩ := ite_some_none_eq_some.mp hpwq
    have hp := PWQMessage.proceeds_recv hpwq'
    exact hoth rfl (h.goes_on hatt hm ⟨hp.allocated,hp.done,hp.finished,hp.cleaned⟩ hupd)
  | arriveDirect k data =>
    obtain ⟨d,-,hs⟩ := bind_eq_some_iff.mp hs
    obtain ⟨-,rfl⟩ := ite_some_none_eq_some.mp hs
    refine hoth rfl ⟨⟨h.unique,fun o d' queue hq e he => ?_,h.listed,h.sane⟩,hatt⟩
    obtain ⟨r,hr⟩ := h.entries o d' queue hq e he
    exact ⟨r,hr.get,hr.myMap,hr.allocated,hr.origin,hr.dispatchId,hr.key⟩
  | work i offers =>
    obtain ⟨m,hm,hs⟩ := bind_eq_some_iff.mp hs
    obtain ⟨-,hs⟩ := ite_none_right_eq_some.mp hs
    obtain ⟨pwq,hpwq,hs⟩ := bind_eq_some_iff.mp hs
    exact hoth rfl (h.goes_on hatt hm (PWQMessage.proceeds_work hpwq) hs)

end

theorem tabled_new (sendPwqDispatch mcastDispatch : ℕ) :
    Tabled (new sendPwqDispatch mcastDispatch : NativeInterface β) ∧
      Attached (new sendPwqDispatch mcastDispatch : NativeInterface β) := by
  refine ⟨⟨fun o d queue hq => ?_,fun o d queue hq => ?_,by simp [new],by simp [new]⟩,
    by simp [Attached,new]⟩
  · simp [new,NestedMap.get_empty] at hq
  · simp [new,NestedMap.get_empty] at hq

/-- In all runs in which no chunk comes for a message that is mixed up with another one in progress, the
messages are separated; and a step from there leaves them so exactly if it keeps that condition. -/
theorem separated_iff {sendPwqDispatch mcastDispatch : ℕ}
    (h : Run NativeInterface.step Distinct (new sendPwqDispatch mcastDispatch) ni) :
    Separated ni ∧ ∀ e ni', ni.step e = some ni' → (Separated ni' ↔ ni.Distinct e) := by
  have hinv : Tabled ni ∧ Attached ni := by
    apply Run.invariant (P := fun ni => Tabled ni ∧ Attached ni) h
    · exact tabled_new sendPwqDispatch mcastDispatch
    · intro s e s' hinv hok hsp
      obtain ⟨htab,hiff⟩ := hinv.1.step hinv.2 hsp
      exact ⟨htab,hiff.mpr hok⟩
  refine ⟨hinv.1.separated_of_attached.mpr hinv.2,fun e ni' hs => ?_⟩
  obtain ⟨htab,hiff⟩ := hinv.1.step hinv.2 hs
  exact htab.separated_of_attached.trans hiff

instance (ni : NativeInterface β) (id : MsgId) : Decidable (ni.Apart id) :=
  inferInstanceAs (Decidable (∀ m ∈ ni.messages, _ → _ → _ → _ → _ → _))

instance (ni : NativeInterface β) (e : DispatchEvent β) : Decidable (ni.Distinct e) :=
  inferInstanceAs (Decidable (∀ id ∈ ni.chunkId e, ni.Apart id))

/-- Two messages of one byte each, from one origin: the data of the first one is still to come when the
second one does, and is complete. -/
theorem two_messages_separated : ∃ ni ni' : NativeInterface ℕ,
    ni.step (.sendPwq 3 ⟨2, 0, 0⟩ (.data [20]) ⟨1, some 1⟩ [1]) = some ni' ∧
      ni'.messages.map (fun m => m.pwq.done) = [0, 1] ∧ Separated ni ∧ Separated ni' := by
  have h : Run NativeInterface.step Distinct (new 1 2) (new 1 2 : NativeInterface ℕ) := .refl
  have hpair := separated_iff (h.checked [.sendPwq 3 ⟨1,0,0⟩ (.recv [0]) ⟨1,some 1⟩ []] rfl)
  have hnx := hpair.2 (.sendPwq 3 ⟨2,0,0⟩ (.data [20]) ⟨1,some 1⟩ [1]) _ rfl
  exact ⟨_,_,rfl,rfl,hpair.1,hnx.mpr (by decide)⟩

/-- The first chunks of two messages of two bytes each, with the pairs (1, 0) and (0, 16): the second one is
put in the packet queue of the first message. -/
theorem pairs_mixed_up : ∃ ni : NativeInterface ℕ,
    execEvents NativeInterface.step [.sendPwq 3 ⟨1, 0, 0⟩ (.data [10]) ⟨2, some 2⟩ [1],
      .sendPwq 3 ⟨0, 16, 0⟩ (.data [20]) ⟨2, some 2⟩ [1]] (new 1 2) = some ni ∧
    ni.messages.length = 1 ∧ ¬ Separated ni := by
  refine ⟨_,rfl,rfl,fun h => ?_⟩
  exact absurd (h.attached _ (mem_singleton_self _) ⟨3,1,0,16⟩ (by decide)) (by decide)

end NativeInterface

end PAMI.Pwq
