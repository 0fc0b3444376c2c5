import PAMI.Pwq.Dispatch

namespace PAMI.Pwq

open PAMI.Math MatchQueue List Option BitVec

variable {β : Type*}

theorem searchKey_getLsbD (c m : BitVec 32) {i : ℕ} (hi : i<64) :
    (searchKey c m).getLsbD i = ((decide (4 ≤ i) && c.getLsbD (i-4)) || m.getLsbD i) := by
  have hmask : (0x00000000FFFFFFFF#64).getLsbD i = decide (i<32) := by
    revert hi
    revert i
    decide
  simp only [searchKey,getLsbD_or,getLsbD_shiftLeft,getLsbD_and,getLsbD_setWidth,hmask]
  by_cases h4 : i<4
  · simp [h4,hi,Nat.not_le.mpr h4,show i<32 by omega]
  · by_cases h32 : i<32
    · simp [h4,hi,h32,Nat.not_lt.mp h4,show i-4<64 by omega]
    · have hm : m.getLsbD i=false := getLsbD_of_ge m i (by omega)
      simp [h4,hi,h32,hm,Nat.not_lt.mp h4,show i-4<64 by omega]

def Collides (c m c' m' : BitVec 32) : Prop := m &&& 15 = m' &&& 15 ∧ c ||| m >>> 4 = c' ||| m' >>> 4

instance (c m c' m' : BitVec 32) : Decidable (Collides c m c' m') := inferInstanceAs (Decidable (_ ∧ _))

theorem searchKey_eq_iff {c m c' m' : BitVec 32} :
    searchKey c m = searchKey c' m' ↔ Collides c m c' m' := by
  have hlow : ∀ {i}, i<32 → (15#32).getLsbD i = decide (i<4) := by decide
  constructor
  · intro h
    constructor
    · apply eq_of_getLsbD_eq
      intro i hi
      have hbit := congrArg (·.getLsbD i) h
      simp only [searchKey_getLsbD _ _ (show i<64 by omega)] at hbit
      by_cases h4 : i<4
      · simpa [h4,Nat.not_le.mpr h4,hlow hi] using hbit
      · simp [h4,hlow hi]
    · apply eq_of_getLsbD_eq
      intro i hi
      have hbit := congrArg (·.getLsbD (4+i)) h
      simpa [searchKey_getLsbD _ _ (show 4+i<64 by omega)] using hbit
  · intro ⟨hm,hc⟩
    apply eq_of_getLsbD_eq
    intro i hi
    rw [searchKey_getLsbD _ _ hi,searchKey_getLsbD _ _ hi]
    by_cases h4 : i<4
    · have hbit := congrArg (·.getLsbD i) hm
      simpa [h4,Nat.not_le.mpr h4,hlow (show i<32 by omega)] using hbit
    · have hbit := congrArg (·.getLsbD (i-4)) hc
      simpa [Nat.not_lt.mp h4] using hbit

def MsgId.key (id : MsgId) : BitVec 64 := searchKey id.connectionId id.pwqMsgId

/-- What holds of every message on its own. -/
structure Message.Sane (m : Message β) : Prop where
  key : m.searchKey = m.created.key
  once : m.pwq.done = if m.pwq.allocated = true then 0 else 1
  finished : m.pwq.allocated = false → m.pwq.totalRecvln = 0
  cleaned : m.length ≠ 0 → m.pwq.totalRecvln = 0 → m.pwq.allocated = false

variable {m : Message β} {pwq : PWQMessage β}

theorem Message.Sane.proceeds (h : m.Sane) (hp : m.pwq.Proceeds pwq) (attached : List MsgId) :
    Message.Sane { m with attached := attached, pwq := pwq } := by
  refine ⟨h.key,hp.done h.once,hp.finished h.finished,fun hlen hzr => ?_⟩
  obtain hfal | ⟨hzr',hall⟩ := hp.cleaned hzr
  · exact hfal
  · exact hall.trans (h.cleaned hlen hzr')

theorem Message.Sane.done_eq_zero (h : m.Sane) : m.pwq.done=0 ↔ m.pwq.allocated=true := by
  rw [h.once]
  cases m.pwq.allocated <;> simp

theorem Message.Sane.done_eq_one (h : m.Sane) : m.pwq.done=1 ↔ m.pwq.allocated=false := by
  rw [h.once]
  cases m.pwq.allocated <;> simp

namespace NativeInterface

variable {ni ni' : NativeInterface β} {i j : ℕ} {m' : Message β} {id : MsgId}

def InQueue (ni : NativeInterface β) (i : ℕ) (m : Message β) : Prop :=
  ∃ queue, ni.pwqRanksMap.get m.created.origin m.created.dispatchId = some queue ∧ ⟨m.searchKey, i⟩ ∈ queue

/-- The message of an element of a match queue: it is in progress, and has the key of the element. -/
structure Entry (ni : NativeInterface β) (origin dispatchId : ℕ) (e : MatchQueueElem)
    (m : Message β) : Prop where
  get : ni.messages[e.msg]? = some m
  myMap : m.myMap = true
  allocated : m.pwq.allocated = true
  origin : m.created.origin = origin
  dispatchId : m.created.dispatchId = dispatchId
  key : m.searchKey = e.key

/-- The match queues have the messages that are in progress, and no others. -/
structure Tabled (ni : NativeInterface β) : Prop where
  unique : ∀ o d queue, ni.pwqRanksMap.get o d = some queue → queue.Unique
  entries : ∀ o d queue, ni.pwqRanksMap.get o d = some queue → ∀ e ∈ queue, ∃ m, ni.Entry o d e m
  listed : ∀ i m, ni.messages[i]? = some m → m.myMap = true → m.pwq.allocated = true → ni.InQueue i m
  sane : ∀ m ∈ ni.messages, m.Sane

theorem getElem?_set_cases {l : List (Message β)} (h : (l.set i m')[j]? = some m) :
    (j=i ∧ m=m') ∨ (j≠i ∧ l[j]? = some m) := by
  by_cases hij : j=i
  · subst hij
    rw [List.getElem?_set_self'] at h
    obtain ⟨_,-,rfl⟩ := map_eq_some_iff.mp h
    exact .inl ⟨rfl,rfl⟩
  · rw [List.getElem?_set_ne (Ne.symm hij)] at h
    exact .inr ⟨hij,h⟩

section

variable (h : Tabled ni) (hm : ni.messages[i]? = some m) (hp : m.pwq.Proceeds pwq)
include h hm hp

theorem Tabled.sane_set (attached : List MsgId) :
    ∀ m' ∈ ni.messages.set i { m with attached := attached, pwq := pwq }, m'.Sane := by
  intro m' hm'
  obtain hm' | rfl := mem_or_eq_of_mem_set hm'
  · exact h.sane m' hm'
  · exact (h.sane m (mem_of_getElem? hm)).proceeds hp attached

theorem Tabled.set_message (attached : List MsgId) (hstay : m.myMap=true → pwq.allocated=m.pwq.allocated) :
    Tabled { ni with messages := ni.messages.set i { m with attached := attached, pwq := pwq } } := by
  have hlt := (List.getElem?_eq_some_iff.mp hm).1
  refine ⟨h.unique,fun o d queue hq e he => ?_,fun j m' hm' hmap hall => ?_,h.sane_set hm hp attached⟩
  · obtain ⟨r,hr⟩ := h.entries o d queue hq e he
    by_cases hei : e.msg=i
    · obtain rfl : r=m := some.inj ((hei ▸ hr.get).symm.trans hm)
      refine ⟨{ r with attached := attached, pwq := pwq },?_,hr.myMap,
        (hstay hr.myMap).trans hr.allocated,hr.origin,hr.dispatchId,hr.key⟩
      rw [hei]
      exact List.getElem?_set_self hlt
    · exact ⟨r,(List.getElem?_set_ne (Ne.symm hei)).trans hr.get,hr.myMap,hr.allocated,hr.origin,
        hr.dispatchId,hr.key⟩
  · obtain ⟨rfl,rfl⟩ | ⟨-,hm'⟩ := getElem?_set_cases hm'
    · exact h.listed j m hm hmap ((hstay hmap).symm.trans hall)
    · exact h.listed j m' hm' hmap hall

omit h hm hp in
theorem cleanupMaps_get {queue : MatchQueue} (hmap : m.myMap=true)
    (hget : ni.pwqRanksMap.get m.created.origin m.created.dispatchId = some queue) :
    ∃ maps, ni.cleanupMaps i m = some maps ∧ ∀ o d, maps.get o d =
      if o=m.created.origin ∧ d=m.created.dispatchId then
        if (queue.deleteElem ⟨m.searchKey,i⟩).size=0 then none
        else some (queue.deleteElem ⟨m.searchKey,i⟩)
      else ni.pwqRanksMap.get o d := by
  refine ⟨if (queue.deleteElem ⟨m.searchKey,i⟩).size=0 then
      ni.pwqRanksMap.drop m.created.origin m.created.dispatchId
    else ni.pwqRanksMap.set m.created.origin m.created.dispatchId (queue.deleteElem ⟨m.searchKey,i⟩),
    by rw [cleanupMaps,if_pos hmap,hget,map_some],fun o d => ?_⟩
  by_cases hzr : (queue.deleteElem ⟨m.searchKey,i⟩).size=0
  · rw [if_pos hzr,if_pos hzr,NestedMap.get_drop]
  · rw [if_neg hzr,if_neg hzr,NestedMap.get_set]

theorem Tabled.cleanup (attached : List MsgId) (hmap : m.myMap=true) (hall : m.pwq.allocated=true)
    (hdn : pwq.allocated=false) : ∃ maps, ni.cleanupMaps i { m with attached := attached } = some maps ∧
      Tabled { ni with
        pwqRanksMap := maps
        messages := ni.messages.set i { m with attached := attached, pwq := pwq } } := by
  obtain ⟨queue,hget,hmem⟩ := h.listed i m hm hmap hall
  have huni := h.unique _ _ queue hget
  obtain ⟨maps,hcln,hgets⟩ := cleanupMaps_get (i := i) (m := { m with attached := attached }) hmap hget
  have hoth : ∀ o d queue', maps.get o d = some queue' →
      (o=m.created.origin ∧ d=m.created.dispatchId ∧ queue'=queue.deleteElem ⟨m.searchKey,i⟩) ∨
      (¬ (o=m.created.origin ∧ d=m.created.dispatchId) ∧ ni.pwqRanksMap.get o d = some queue') := by
    intro o d queue' hq'
    rw [hgets] at hq'
    split at hq'
    case isTrue heq =>
      obtain ⟨-,hq'⟩ := ite_none_left_eq_some.mp hq'
      exact .inl ⟨heq.1,heq.2,(some.inj hq').symm⟩
    case isFalse hne => exact .inr ⟨hne,hq'⟩
  refine ⟨maps,hcln,fun o d queue' hq' => ?_,fun o d queue' hq' e he => ?_,
    fun j m' hm' hmap' hall' => ?_,h.sane_set hm hp attached⟩
  · obtain ⟨-,-,rfl⟩ | ⟨-,hq'⟩ := hoth o d queue' hq'
    · exact huni.deleteElem
    · exact h.unique o d queue' hq'
  · have hkeep : ∀ r, ni.Entry o d e r → e.msg≠i → Entry { ni with
        pwqRanksMap := maps
        messages := ni.messages.set i { m with attached := attached, pwq := pwq } } o d e r :=
      fun r hr hne => ⟨(List.getElem?_set_ne (Ne.symm hne)).trans hr.get,hr.myMap,hr.allocated,
        hr.origin,hr.dispatchId,hr.key⟩
    obtain ⟨rfl,rfl,rfl⟩ | ⟨hne,hq'⟩ := hoth o d queue' hq'
    · obtain ⟨he,hne⟩ := (mem_deleteElem huni).mp he
      obtain ⟨r,hr⟩ := h.entries _ _ queue hget e he
      refine ⟨r,hkeep r hr fun hei => hne ?_⟩
      obtain rfl : r=m := some.inj ((hei ▸ hr.get).symm.trans hm)
      rw [hr.key,← hei]
    · obtain ⟨r,hr⟩ := h.entries o d queue' hq' e he
      refine ⟨r,hkeep r hr fun hei => hne ?_⟩
      obtain rfl : r=m := some.inj ((hei ▸ hr.get).symm.trans hm)
      exact ⟨hr.origin.symm,hr.dispatchId.symm⟩
  · obtain ⟨-,rfl⟩ | ⟨hne,hm'⟩ := getElem?_set_cases hm'
    · simp [hdn] at hall'
    · obtain ⟨queue',hget',hmem'⟩ := h.listed j m' hm' hmap' hall'
      by_cases heq : m'.created.origin=m.created.origin ∧ m'.created.dispatchId=m.created.dispatchId
      · rw [heq.1,heq.2,hget] at hget'
        obtain rfl := some.inj hget'
        have hmem'' : ⟨m'.searchKey,j⟩ ∈ queue.deleteElem ⟨m.searchKey,i⟩ :=
          (mem_deleteElem huni).mpr ⟨hmem',fun h => hne (MatchQueueElem.mk.inj h).2⟩
        refine ⟨_,?_,hmem''⟩
        rw [hgets,if_pos heq,if_neg fun hzr => size_eq_zero.mp hzr _ hmem'']
      · exact ⟨queue',by rw [hgets,if_neg heq]; exact hget',hmem'⟩

end

variable {ni ni' : NativeInterface β} {i j : ℕ} {m m' : Message β} {pwq : PWQMessage β} {id : MsgId}

section

variable (h : Tabled ni)
include h

theorem Tabled.update (hm : ni.messages[i]? = some m) (hp : m.pwq.Proceeds pwq) (attached : List MsgId)
    (hs : ni.update i { m with attached := attached } pwq = some ni') :
    Tabled ni' ∧ ni'.messages = ni.messages.set i { m with attached := attached, pwq := pwq } := by
  obtain ⟨maps,hmaps,rfl⟩ := map_eq_some_iff.mp hs
  refine ⟨?_,rfl⟩
  by_cases hcle : m.pwq.allocated=true ∧ ¬ pwq.allocated=true
  · rw [if_pos hcle] at hmaps
    by_cases hmap : m.myMap=true
    · obtain ⟨maps',hmaps',htab⟩ := h.cleanup hm hp attached hmap hcle.1 (by simpa using hcle.2)
      obtain rfl := some.inj (hmaps'.symm.trans hmaps)
      exact htab
    · rw [cleanupMaps,if_neg hmap] at hmaps
      obtain rfl := some.inj hmaps
      exact h.set_message hm hp attached fun h => absurd h hmap
  · rw [if_neg hcle] at hmaps
    obtain rfl := some.inj hmaps
    refine h.set_message hm hp attached fun _ => ?_
    cases hall : m.pwq.allocated with
    | true => simpa [hall] using hcle
    | false =>
      by_contra hne
      have := hp.allocated (by simpa using hne)
      simp [hall] at this

theorem Tabled.exists_update (hm : ni.messages[i]? = some m) (pwq : PWQMessage β) (attached : List MsgId) :
    ∃ maps, ni.update i { m with attached := attached } pwq = some { ni with
      pwqRanksMap := maps
      messages := ni.messages.set i { m with attached := attached, pwq := pwq } } := by
  rw [NativeInterface.update]
  by_cases hcle : m.pwq.allocated=true ∧ ¬ pwq.allocated=true
  · rw [if_pos hcle]
    by_cases hmap : m.myMap=true
    · obtain ⟨queue,hget,-⟩ := h.listed i m hm hmap hcle.1
      obtain ⟨maps,hmaps,-⟩ := cleanupMaps_get (i := i) (m := { m with attached := attached }) hmap hget
      exact ⟨maps,by rw [hmaps,map_some]⟩
    · exact ⟨ni.pwqRanksMap,by rw [cleanupMaps,if_neg hmap,map_some]⟩
  · exact ⟨ni.pwqRanksMap,by rw [if_neg hcle,map_some]⟩

omit h in
theorem getElem?_concat_cases {l : List (Message β)} (h : (l ++ [m'])[j]? = some m) :
    l[j]? = some m ∨ (j=l.length ∧ m=m') := by
  by_cases hlt : j<l.length
  · rw [List.getElem?_append_left hlt] at h
    exact .inl h
  · rw [List.getElem?_append_right (by omega),List.getElem?_singleton] at h
    obtain ⟨hj,h⟩ := ite_none_right_eq_some.mp h
    exact .inr ⟨by omega,(some.inj h).symm⟩

omit h in
theorem getElem?_concat {l : List (Message β)} (h : l[j]? = some m) : (l ++ [m'])[j]? = some m := by
  rw [List.getElem?_append_left (List.getElem?_eq_some_iff.mp h).1,h]

theorem Tabled.sane_new (id : MsgId) (l : LocalRecv) (myMap : Bool) :
    ∀ m ∈ (ni.newMessage id l myMap).messages, m.Sane := by
  intro m hm
  obtain hm | hm := mem_append.mp hm
  · exact h.sane m hm
  · obtain rfl := mem_singleton.mp hm
    exact ⟨rfl,rfl,by simp [PWQMessage.new],fun hlen hzr => absurd hzr hlen⟩

theorem Tabled.newMessage (id : MsgId) (l : LocalRecv) : Tabled (ni.newMessage id l false) := by
  refine ⟨h.unique,fun o d queue hq e he => ?_,fun j m hm hmap hall => ?_,h.sane_new id l false⟩
  · obtain ⟨r,hr⟩ := h.entries o d queue hq e he
    exact ⟨r,getElem?_concat hr.get,hr.myMap,hr.allocated,hr.origin,hr.dispatchId,hr.key⟩
  · obtain hm | ⟨-,rfl⟩ := getElem?_concat_cases hm
    · exact h.listed j m hm hmap hall
    · simp at hmap

theorem Tabled.pushTail (id : MsgId) (l : LocalRecv)
    (hfind : (ni.matchQueue id.origin id.dispatchId).find id.key = none) :
    Tabled { ni.newMessage id l true with
      pwqRanksMap := ni.pwqRanksMap.set id.origin id.dispatchId
        ((ni.matchQueue id.origin id.dispatchId).pushTail ⟨id.key,ni.messages.length⟩) } := by
  have hque : (ni.matchQueue id.origin id.dispatchId).Unique ∧
      ∀ e ∈ ni.matchQueue id.origin id.dispatchId, ∃ m, ni.Entry id.origin id.dispatchId e m := by
    rw [matchQueue]
    cases hget : ni.pwqRanksMap.get id.origin id.dispatchId with
    | none => exact ⟨unique_empty,fun e he => absurd he notMem_empty⟩
    | some queue => exact ⟨h.unique _ _ queue hget,h.entries _ _ queue hget⟩
  have hkeep : ∀ o d e, (∃ r, ni.Entry o d e r) → ∃ r, Entry { ni.newMessage id l true with
      pwqRanksMap := ni.pwqRanksMap.set id.origin id.dispatchId
        ((ni.matchQueue id.origin id.dispatchId).pushTail ⟨id.key,ni.messages.length⟩) } o d e r :=
    fun o d e ⟨r,hr⟩ => ⟨r,getElem?_concat hr.get,hr.myMap,hr.allocated,hr.origin,hr.dispatchId,hr.key⟩
  refine ⟨fun o d queue hq => ?_,fun o d queue hq e he => ?_,fun j m hm hmap hall => ?_,h.sane_new id l true⟩
  · rw [NestedMap.get_set] at hq
    split at hq
    case isTrue =>
      obtain rfl := some.inj hq
      exact hque.1.pushTail fun e he => find_none hfind he
    case isFalse => exact h.unique o d queue hq
  · rw [NestedMap.get_set] at hq
    split at hq
    case isTrue heq =>
      obtain rfl := some.inj hq
      obtain ⟨rfl,rfl⟩ := heq
      obtain he | rfl := mem_pushTail.mp he
      · exact hkeep _ _ e (hque.2 e he)
      · exact ⟨_,List.getElem?_concat_length,rfl,rfl,rfl,rfl,rfl⟩
    case isFalse => exact hkeep o d e (h.entries o d queue hq e he)
  · obtain hm | ⟨rfl,rfl⟩ := getElem?_concat_cases hm
    · obtain ⟨queue,hget,hmem⟩ := h.listed j m hm hmap hall
      by_cases heq : m.created.origin=id.origin ∧ m.created.dispatchId=id.dispatchId
      · refine ⟨_,(NestedMap.get_set _).trans (if_pos heq),mem_pushTail.mpr (.inl ?_)⟩
        rw [matchQueue,← heq.1,← heq.2,hget]
        exact hmem
      · exact ⟨queue,((NestedMap.get_set _).trans (if_neg heq)).trans hget,hmem⟩
    · exact ⟨_,(NestedMap.get_set _).trans (if_pos ⟨rfl,rfl⟩),mem_pushTail.mpr (.inr rfl)⟩

theorem Tabled.findMessage (id : MsgId) (l : LocalRecv) : Tabled (ni.findMessage id l).1 ∧
      ∃ m, (ni.findMessage id l).1.messages[(ni.findMessage id l).2]? = some m ∧ m.myMap=true ∧
        m.pwq.allocated=true ∧ m.created.origin=id.origin ∧
        m.created.dispatchId=id.dispatchId ∧ m.created.key=id.key ∧
        ((ni.findMessage id l).1=ni ∨
          ((ni.findMessage id l).1.messages = ni.messages ++ [m] ∧ m.created=id ∧ m.attached = [])) := by
  cases hfind : (ni.matchQueue id.origin id.dispatchId).find id.key with
  | some e =>
    have heq : ni.findMessage id l=(ni, e.msg) := by
      rw [MsgId.key] at hfind
      simp only [NativeInterface.findMessage,hfind]
    obtain ⟨he,hkey⟩ := find_some hfind
    have hget : ni.pwqRanksMap.get id.origin id.dispatchId = some (ni.matchQueue id.origin id.dispatchId) := by
      rw [matchQueue] at he ⊢
      cases hget : ni.pwqRanksMap.get id.origin id.dispatchId with
      | none =>
        rw [hget] at he
        exact absurd he notMem_empty
      | some queue => rfl
    obtain ⟨m,hm⟩ := h.entries _ _ _ hget e he
    have hsane := h.sane m (mem_of_getElem? hm.get)
    rw [heq]
    exact ⟨h,m,hm.get,hm.myMap,hm.allocated,hm.origin,hm.dispatchId,
      hsane.key.symm.trans (hm.key.trans hkey),.inl rfl⟩
  | none =>
    have heq : ni.findMessage id l=({ ni.newMessage id l true with
        pwqRanksMap := ni.pwqRanksMap.set id.origin id.dispatchId
          ((ni.matchQueue id.origin id.dispatchId).pushTail ⟨id.key,ni.messages.length⟩) },
        ni.messages.length) := by
      rw [MsgId.key] at hfind ⊢
      simp only [NativeInterface.findMessage,hfind]
    rw [heq]
    exact ⟨h.pushTail id l hfind,_,List.getElem?_concat_length,rfl,rfl,rfl,rfl,rfl,.inr ⟨rfl,rfl,rfl⟩⟩

theorem Tabled.findMessage_eq (hm : ni.messages[i]? = some m) (hmap : m.myMap=true)
    (hall : m.pwq.allocated=true) (l : LocalRecv) : ni.findMessage m.created l = (ni, i) := by
  obtain ⟨queue,hget,hmem⟩ := h.listed i m hm hmap hall
  have hfind : (ni.matchQueue m.created.origin m.created.dispatchId).find m.created.key = some ⟨m.searchKey,i⟩ := by
    rw [matchQueue,hget,getD_some,← (h.sane m (mem_of_getElem? hm)).key]
    exact (h.unique _ _ queue hget).find hmem
  rw [MsgId.key] at hfind
  simp only [NativeInterface.findMessage,hfind]

theorem Tabled.findMessage_new (hnil : ni.messages = []) (id : MsgId) (l : LocalRecv) :
    (ni.findMessage id l).1.messages = [⟨.new l.totalRcvln,id.key,true,id,l.totalRcvln,[]⟩] ∧
      (ni.findMessage id l).2=0 := by
  have hfind : (ni.matchQueue id.origin id.dispatchId).find id.key=none := by
    rw [matchQueue]
    cases hget : ni.pwqRanksMap.get id.origin id.dispatchId with
    | none => rfl
    | some queue =>
      rw [getD_some]
      by_contra hso
      obtain ⟨e,he⟩ := ne_none_iff_exists'.mp hso
      obtain ⟨m,hm⟩ := h.entries _ _ queue hget e (find_some he).1
      simpa [hnil] using hm.get
  rw [MsgId.key] at hfind
  simp only [NativeInterface.findMessage,hfind]
  simp [NativeInterface.newMessage,hnil,MsgId.key]

end

theorem findMessage_frame (ni : NativeInterface β) (id : MsgId) (l : LocalRecv) :
    (ni.findMessage id l).1.direct=ni.direct ∧ (ni.findMessage id l).1.sendPwqDispatch=ni.sendPwqDispatch := by
  rw [NativeInterface.findMessage]
  split <;> exact ⟨rfl,rfl⟩

end NativeInterface

end PAMI.Pwq
