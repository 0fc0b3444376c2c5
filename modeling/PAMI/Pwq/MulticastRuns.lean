import PAMI.Pwq.MulticastCounts
import PAMI.Pwq.TransferLimits

namespace PAMI.Pwq

open PAMI.Math List Option

variable {β : Type*} {p : McastParams} {offers : List ℕ} {c : Chunk β} {payload : Payload β}
  {avail : Option ℕ}

namespace McastSend

variable {s s' : McastSend β} {cond : Prop}

theorem sends_mcastDone_iterate (n : ℕ) (s : McastSend β) : ((mcastDone p)^[n] s).sends=s.sends := by
  induction n generalizing s with
  | zero => rfl
  | succ n ih =>
    have hrou : (mcastDone p s).sends=s.sends := by
      rw [mcastDone]
      split <;> rfl
    rw [Function.iterate_succ_apply,ih,hrou]

structure Grows (s s' : McastSend β) (cond : Prop) : Prop where
  sends : s.sends <+: s'.sends
  copied : s'.copied = 0 ↔ s.copied = 0 ∧ cond

theorem Grows.of_sends (hcond : cond) (h : s'.sends=s.sends) : Grows s s' cond := by
  have hcop : s'.copied=s.copied := by rw [McastSend.copied,h,McastSend.copied]
  refine ⟨h ▸ prefix_rfl,?_⟩
  rw [hcop]
  exact (and_iff_left hcond).symm

theorem Grows.of_append (h : s'.sends = s.sends ++ [c]) (hcond : cond ↔ c.inTmpbuf.toNat*c.data.length=0) :
    Grows s s' cond := by
  refine ⟨h ▸ prefix_append _ _,?_⟩
  rw [copied_append h,hcond,Nat.add_eq_zero_iff]

theorem grows_simplePWQ (p : McastParams) (s : McastSend β) :
    Grows s (s.simplePWQ p) (Multicast.Uncopied s) := by
  rw [simplePWQ]
  split
  case isTrue hle =>
    have hcond : Multicast.Uncopied s := .inr (.inl hle)
    have hfal : ∀ data : List β, false.toNat*data.length=0 := fun data => zero_mul _
    rw [sendPiece]
    simp only
    split
    case isTrue =>
      split
      case isTrue =>
        refine .of_append (sends_mcastDone_iterate p.ndestinations _) ?_
        exact iff_of_true hcond (hfal _)
      case isFalse => exact .of_append rfl (iff_of_true hcond (hfal _))
    case isFalse => exact .of_append rfl (iff_of_true hcond (hfal _))
  case isFalse hgt =>
    have hiff : Multicast.Uncopied s ↔ (copyLoop (min s.totalSndln tmpbufSize) [] s.pwq).1.length=0 := by
      have := copyLoop_pos_iff (min s.totalSndln tmpbufSize) s.pwq
      rw [Multicast.Uncopied]
      omega
    rw [sendBuffer]
    generalize copyLoop (min s.totalSndln tmpbufSize) [] s.pwq=copied at hiff
    simp only
    split
    case isTrue hemp => exact .of_sends (hiff.mpr hemp.2) rfl
    case isFalse => exact .of_append rfl (hiff.trans (by simp))

theorem grows_post (hs : s.post p = some s') : Grows s s' (Multicast.Uncopied s) := by
  obtain ⟨-,hs⟩ := ite_none_left_eq_some.mp hs
  obtain rfl := some.inj hs
  have hgro := grows_simplePWQ p { s with posted := true }
  exact ⟨hgro.sends,hgro.copied⟩

theorem grows_work (hs : s.work p = some s') : Grows s s' (Multicast.Uncopied s) := by
  obtain ⟨-,rfl⟩ := ite_some_none_eq_some.mp hs
  exact grows_simplePWQ p s

theorem grows_chunkDone (hs : s.chunkDone p = some s') :
    Grows s s' (s.participants≤1 → Multicast.Uncopied s) := by
  obtain ⟨-,hs⟩ := ite_none_left_eq_some.mp hs
  split at hs
  case isTrue hla =>
    split at hs
    case isTrue hzr =>
      obtain rfl := some.inj hs
      refine .of_sends (fun _ => .inr (.inl ?_)) (sends_mcastDone_iterate _ _)
      rw [hzr]
      exact Nat.zero_le _
    case isFalse =>
      obtain rfl := some.inj hs
      have hgro := grows_simplePWQ p s.completeOne.nextNumber
      have hone : s.participants≤1 := by
        simp only [completeOne] at hla
        omega
      exact ⟨hgro.sends,hgro.copied.trans (and_congr_right fun _ => ⟨fun h _ => h,fun h => h hone⟩)⟩
  case isFalse hgoes =>
    obtain rfl := some.inj hs
    refine .of_sends (fun hone => ?_) rfl
    simp only [completeOne] at hgoes
    omega

end McastSend

namespace McastReceive

variable {r r' : McastReceive β} {length limit : ℕ}

def Right (length limit : ℕ) : McastReceive β → Prop
  | direct totalRcvln produced done => totalRcvln = length ∧ produced = if done = 0 then 0 else length
  | message pwq myMap => pwq.Exact length (if myMap then limit else length)

theorem Right.produced (h : Right length limit r) (hdn : 0 < r.done) : r.produced=length := by
  cases r with
  | direct totalRcvln produced done => exact h.2.trans (if_neg hdn.ne')
  | message pwq myMap => exact PWQMessage.Exact.produced h hdn

theorem Right.mono (h : Right length limit r) {limit' : ℕ} (hle : limit≤limit') :
    Right length limit' r := by
  cases r with
  | direct totalRcvln produced done => exact h
  | message pwq myMap =>
    cases myMap with
    | false => exact h
    | true => exact PWQMessage.Exact.mono h hle

theorem right_contig (hsi : payload.size=length) (hs : contig length avail payload = some r) :
    Right length limit r := by
  cases payload with
  | neither =>
    obtain rfl := some.inj hs
    exact ⟨rfl,hsi⟩
  | recv buffer =>
    obtain ⟨a,-,hs⟩ := bind_eq_some_iff.mp hs
    obtain ⟨-,rfl⟩ := ite_some_none_eq_some.mp hs
    exact ⟨rfl,rfl⟩
  | data bytes =>
    cases bytes with
    | nil =>
      obtain rfl := some.inj hs
      exact ⟨rfl,hsi⟩
    | cons b bytes =>
      obtain ⟨a,-,hs⟩ := bind_eq_some_iff.mp hs
      obtain ⟨-,rfl⟩ := ite_some_none_eq_some.mp hs
      exact ⟨rfl,hsi⟩

theorem Right.arriveDirect (h : Right length limit r) (hs : r.arriveDirect = some r') :
    Right length limit r' := by
  cases r with
  | message pwq myMap => contradiction
  | direct totalRcvln produced done =>
    obtain ⟨hzr,rfl⟩ := ite_some_none_eq_some.mp hs
    obtain ⟨htot,hpro⟩ := h
    rw [if_pos hzr] at hpro
    refine ⟨htot,?_⟩
    rw [hpro,htot,zero_add,if_neg (Nat.succ_ne_zero _)]

theorem Right.modify (h : Right length limit r) (hlim : limit≤length)
    {f : PWQMessage β → Option (PWQMessage β)}
    (hf : ∀ pwq pwq' limit', limit'≤length → pwq.Exact length limit' → f pwq = some pwq' → pwq'.Exact length limit')
    (hs : r.modify f = some r') : Right length limit r' := by
  cases r with
  | direct totalRcvln produced done => contradiction
  | message pwq myMap =>
    obtain ⟨pwq',hpwq,rfl⟩ := map_eq_some_iff.mp hs
    refine hf pwq pwq' _ ?_ h hpwq
    split
    · exact hlim
    · exact le_rfl

end McastReceive

namespace McastTarget

variable {t t' : McastTarget β} {sends : List (Chunk β)} {bytes : ℕ}

/-- The bytes of the chunks that have been dispatched. -/
def received (sends : List (Chunk β)) (t : McastTarget β) : ℕ :=
  ((sends.take t.dispatched).map fun c => c.data.length).sum

/-- All receives of a destination are right. -/
structure Exact (bytes : ℕ) (sends : List (Chunk β)) (t : McastTarget β) : Prop where
  dispatched : t.dispatched ≤ sends.length
  receives : ∀ r ∈ t.receives, r.Right bytes (t.received sends)

theorem received_le (sends : List (Chunk β)) (t : McastTarget β) :
    t.received sends ≤ (sends.map fun c => c.data.length).sum := by
  have hspl := congrArg (fun l => (l.map fun c : Chunk β => c.data.length).sum)
    (take_append_drop t.dispatched sends)
  simp only [map_append,List.sum_append] at hspl
  rw [received]
  omega

theorem received_succ (hc : sends[t.dispatched]? = some c) (hnx : t'.dispatched=t.dispatched+1) :
    t'.received sends = t.received sends+c.data.length := by
  rw [received,hnx,take_add_one,hc]
  simp [received]

theorem exact_nil (bytes : ℕ) (sends : List (Chunk β)) : Exact bytes sends ⟨0,[]⟩ :=
  ⟨Nat.zero_le _,fun r hr => absurd hr not_mem_nil⟩

section

variable (h : Exact bytes sends t)
include h

theorem Exact.grows {later : List (Chunk β)} (hle : sends <+: later) : Exact bytes later t := by
  obtain ⟨more,rfl⟩ := hle
  refine ⟨h.dispatched.trans (by simp),fun r hr => ?_⟩
  rw [received,take_append_of_le_length h.dispatched]
  exact h.receives r hr

theorem Exact.append (hc : sends[t.dispatched]? = some c) {r : McastReceive β}
    (hr : r.Right bytes (t.received sends+c.data.length)) :
    Exact bytes sends { t with dispatched := t.dispatched+1, receives := t.receives ++ [r] } := by
  obtain ⟨hlt,-⟩ := List.getElem?_eq_some_iff.mp hc
  refine ⟨hlt,fun q hq => ?_⟩
  rw [received_succ hc rfl]
  obtain hq | hq := mem_append.mp hq
  · exact (h.receives q hq).mono (Nat.le_add_right _ _)
  · rwa [mem_singleton.mp hq]

theorem Exact.dispatchMcast (hc : sends[t.dispatched]? = some c) (hsi : payload.size=c.data.length)
    (hflag : c.header.contig≠0 → c.data.length=bytes)
    (hsum : (sends.map fun c => c.data.length).sum≤bytes)
    (hs : t.dispatchMcast bytes c payload avail offers = some t') : Exact bytes sends t' := by
  have hlim : t.received sends+payload.size≤bytes := by
    have hnx : ({ t with dispatched := t.dispatched+1 } : McastTarget β).received sends =
        t.received sends+c.data.length := received_succ hc rfl
    rw [hsi,← hnx]
    exact (received_le sends _).trans hsum
  simp only [McastTarget.dispatchMcast] at hs
  split at hs
  case isTrue hcon =>
    have hall := hsi.trans (hflag hcon)
    split at hs
    case isTrue =>
      obtain ⟨pwq,hpwq,rfl⟩ := map_eq_some_iff.mp hs
      have hexa := (PWQMessage.exact_new bytes 0).receive (by omega) hpwq
      exact h.append hc (hexa.mono (show 0+payload.size≤bytes by omega))
    case isFalse =>
      obtain ⟨r,hr,rfl⟩ := map_eq_some_iff.mp hs
      exact h.append hc (McastReceive.right_contig hall hr)
  case isFalse =>
    split at hs
    case h_1 =>
      obtain ⟨pwq,hpwq,rfl⟩ := map_eq_some_iff.mp hs
      have hexa := (PWQMessage.exact_new bytes (t.received sends)).receive hlim hpwq
      rw [hsi] at hexa
      exact h.append hc hexa
    case h_2 k hk =>
      obtain ⟨r',hr',rfl⟩ := map_eq_some_iff.mp hs
      obtain ⟨r,hr,hmod⟩ := bind_eq_some_iff.mp hr'
      obtain ⟨hlt,-⟩ := List.getElem?_eq_some_iff.mp hc
      obtain ⟨hbou,hfou,-⟩ := List.findIdx?_eq_some_iff_getElem.mp hk
      obtain rfl : t.receives[k]=r := (List.getElem?_eq_some_iff.mp hr).2
      refine ⟨hlt,fun q hq => ?_⟩
      rw [received_succ hc rfl]
      obtain hq | rfl := mem_or_eq_of_mem_set hq
      · exact (h.receives q hq).mono (Nat.le_add_right _ _)
      · have hrig := h.receives _ (mem_of_getElem? hr)
        generalize t.receives[k]=r at hfou hmod hrig
        cases r with
        | direct totalRcvln produced done => contradiction
        | message pwq myMap =>
          obtain ⟨rfl,-⟩ := (Bool.and_eq_true _ _).mp hfou
          obtain ⟨pwq',hpwq,rfl⟩ := map_eq_some_iff.mp hmod
          have hexa := PWQMessage.Exact.receive hrig hlim hpwq
          rwa [hsi] at hexa

theorem Exact.update {k : ℕ} {f : McastReceive β → Option (McastReceive β)}
    (hf : ∀ r r', r.Right bytes (t.received sends) → f r = some r' → r'.Right bytes (t.received sends))
    (hs : t.update k f = some t') : Exact bytes sends t' := by
  obtain ⟨r',hr',rfl⟩ := map_eq_some_iff.mp hs
  obtain ⟨r,hr,hf'⟩ := bind_eq_some_iff.mp hr'
  refine ⟨h.dispatched,fun q hq => ?_⟩
  obtain hq | rfl := mem_or_eq_of_mem_set hq
  · exact h.receives q hq
  · exact hf r q (h.receives r (mem_of_getElem? hr)) hf'

end

end McastTarget

namespace Multicast

variable {m m' : Multicast β} {e : McastEvent β} {pwq : List (List β)}
  {f : McastTarget β → Option (McastTarget β)}

theorem target_some {i : ℕ} (hs : m.target i f = some m') :
    ∃ t t', t ∈ m.targets ∧ f t = some t' ∧ m' = { m with targets := m.targets.set i t' } := by
  obtain ⟨t',hf,rfl⟩ := map_eq_some_iff.mp hs
  obtain ⟨t,ht,hf⟩ := bind_eq_some_iff.mp hf
  exact ⟨t,t',mem_of_getElem? ht,hf,rfl⟩

theorem grows_step (hs : m.step p e = some m') : McastSend.Grows m.send m'.send (m.Clean e) := by
  cases e with
  | produce data joined =>
    obtain ⟨-,hs⟩ := ite_none_left_eq_some.mp hs
    obtain rfl := some.inj hs
    exact .of_sends trivial rfl
  | post =>
    obtain ⟨s,hps,rfl⟩ := map_eq_some_iff.mp hs
    exact McastSend.grows_post hps
  | complete =>
    obtain ⟨s,hdn,rfl⟩ := map_eq_some_iff.mp hs
    exact McastSend.grows_chunkDone hdn
  | work =>
    obtain ⟨s,hwr,rfl⟩ := map_eq_some_iff.mp hs
    exact McastSend.grows_work hwr
  | dispatch i d avail offers | arriveDirect i k | arrive i k chunk data offers | recvWork i k offers =>
    obtain ⟨t,t',-,-,rfl⟩ := target_some hs
    exact .of_sends trivial rfl

theorem sound_step (hlt : p.ndestinations<2^32) (h : m.send.Sound p) (hs : m.step p e = some m') :
    m'.send.Sound p := by
  cases e with
  | produce data joined =>
    obtain ⟨-,hs⟩ := ite_none_left_eq_some.mp hs
    obtain rfl := some.inj hs
    exact h.produced _
  | post =>
    obtain ⟨s,hps,rfl⟩ := map_eq_some_iff.mp hs
    exact h.post hlt hps
  | complete =>
    obtain ⟨s,hdn,rfl⟩ := map_eq_some_iff.mp hs
    exact h.chunkDone hlt hdn
  | work =>
    obtain ⟨s,hwr,rfl⟩ := map_eq_some_iff.mp hs
    exact h.work hlt hwr
  | dispatch i d avail offers | arriveDirect i k | arrive i k chunk data offers | recvWork i k offers =>
    obtain ⟨t,t',-,-,rfl⟩ := target_some hs
    exact h

def Received (p : McastParams) (m : Multicast β) : Prop :=
  m.send.sends.length ≤ 2^28 → ∀ t ∈ m.targets, t.Exact p.bytes m.send.sends

theorem Received.grows (h : m.Received p) (hsen : m.send.sends <+: m'.send.sends)
    (htrg : m'.targets=m.targets) : m'.Received p := by
  intro hmn t ht
  rw [htrg] at ht
  exact (h (hsen.length_le.trans hmn) t ht).grows hsen

theorem Received.target (h : m.Received p) {i : ℕ}
    (hf : m.send.sends.length≤2^28 → ∀ t t', t.Exact p.bytes m.send.sends → f t = some t' →
      t'.Exact p.bytes m.send.sends) (hs : m.target i f = some m') : m'.Received p := by
  obtain ⟨t,t',ht,htar,rfl⟩ := target_some hs
  intro hmn r hr
  obtain hr | rfl := mem_or_eq_of_mem_set hr
  · exact h hmn r hr
  · exact hf hmn t r (h hmn t ht) htar

theorem received_step (hsou : m.send.Sound p) (h : m.Received p) (hs : m.step p e = some m') :
    m'.Received p := by
  have hgro := (grows_step hs).sends
  have hlim : ∀ t : McastTarget β, t.received m.send.sends≤p.bytes :=
    fun t => (McastTarget.received_le _ t).trans hsou.sent
  cases e with
  | produce data joined =>
    obtain ⟨-,hs⟩ := ite_none_left_eq_some.mp hs
    obtain rfl := some.inj hs
    exact h.grows hgro rfl
  | post | complete | work =>
    obtain ⟨s,-,rfl⟩ := map_eq_some_iff.mp hs
    exact h.grows hgro rfl
  | dispatch i d avail offers =>
    refine h.target (fun hmn t t' ht hf => ?_) hs
    obtain ⟨c,hc,hf⟩ := bind_eq_some_iff.mp hf
    obtain ⟨payload,hpay,hf⟩ := bind_eq_some_iff.mp hf
    refine ht.dispatchMcast hc (Delivery.payload_size hpay) (fun hcon => ?_) hsou.sent hf
    obtain ⟨-,hbyt⟩ | hnum := hsou.numbered c (mem_of_getElem? hc)
    · exact hbyt
    · have hseq : c.header.pwqSeqNo=BitVec.ofNat 32 c.header.pwqSeqNo.toNat := by simp
      exact absurd (contig_ofNat hseq (hnum.trans_le hmn)) hcon
  | arriveDirect i k => exact h.target (fun _ t t' ht hf => ht.update (fun r r' hr => hr.arriveDirect) hf) hs
  | arrive i k chunk data offers =>
    refine h.target (fun _ t t' ht hf => ht.update (fun r r' hr => hr.modify (hlim t) ?_) hf) hs
    intro pwq pwq' limit hle hexa hf
    obtain ⟨hlen,hf⟩ := ite_none_right_eq_some.mp hf
    obtain ⟨pwq1,hare,hrecv⟩ := bind_eq_some_iff.mp hf
    exact (hexa.arriveData hlen hare).recv hle hrecv
  | recvWork i k offers =>
    refine h.target (fun _ t t' ht hf => ht.update (fun r r' hr => hr.modify (hlim t) ?_) hf) hs
    intro pwq pwq' limit hle hexa hf
    obtain ⟨-,hf⟩ := ite_none_right_eq_some.mp hf
    exact hexa.work hle hf

theorem counts_run (hlt : p.ndestinations<2^32)
    (hm : Run (step p) (fun _ _ => True) (start p pwq) m) : m.send.Sound p ∧ m.Received p := by
  refine hm.invariant (P := fun m => m.send.Sound p ∧ m.Received p)
    ⟨McastSend.sound_new pwq,fun _ t ht => ?_⟩
    fun s e s' h _ hs => ⟨sound_step hlt h.1 hs,received_step h.1 h.2 hs⟩
  rw [eq_of_mem_replicate ht]
  exact McastTarget.exact_nil _ _

theorem copied_eq_zero_iff (hm : Run (step p) (fun _ _ => True) (start p pwq) m) :
    m.send.copied=0 ↔ Run (step p) Clean (start p pwq) m := by
  constructor
  · intro hzr
    induction hm with
    | refl => exact .refl
    | step _ _ hs ih =>
      obtain ⟨hbef,hcle⟩ := (grows_step hs).copied.mp hzr
      exact (ih hbef).step hcle hs
  · intro hrun
    exact hrun.invariant (P := fun m => m.send.copied=0) rfl fun s e s' hzr hcle hs => (grows_step hs).copied.mpr ⟨hzr,hcle⟩

/-- The source queue has given the bytes of the message once, at the done callback, exactly in the runs whose steps all meet
the condition. At each destination all bytes are produced when the receive callback runs. -/
theorem multicast_counts (hlt : p.ndestinations < 2^32)
    (hm : Run (step p) (fun _ _ => True) (start p pwq) m) :
    (0 < m.send.done → (m.send.consumed = p.bytes ↔ Run (step p) Clean (start p pwq) m)) ∧
      (m.send.sends.length ≤ 2^28 → m.Produced p) := by
  obtain ⟨hsou,hrec⟩ := counts_run hlt hm
  refine ⟨fun hdn => ?_,fun hmn t ht r hr => ((hrec hmn t ht).receives r hr).produced⟩
  have honce := hsou.once
  have hone : m.send.done=1 := by omega
  have hcns := hsou.consumed
  rw [hone,one_mul] at hcns
  rw [← copied_eq_zero_iff hm,hcns]
  omega

theorem multicast_counts_two : ∃ m : Multicast ℕ, m.send.done = 1 ∧ m.send.consumed = 2 ∧
    m.Produced ⟨2, 2, 0, 0, 7, 0⟩ ∧ m.targets.map (fun t => t.receives.map McastReceive.done) = [[1], [1]] := by
  have hm : Run (step ⟨2,2,0,0,7,0⟩) (fun _ _ => True) (start ⟨2,2,0,0,7,0⟩ []) _ :=
    Run.refl.execEvents [.produce [1,2] false,.post,.complete,.dispatch 0 .inside (some 2) [],
      .complete,.dispatch 1 (.later [0,0]) (some 2) [],.arriveDirect 1 0] (fun _ _ _ => trivial) rfl
  have hcos := multicast_counts (by decide) hm
  refine ⟨_,rfl,(hcos.1 (by decide)).mpr ?_,hcos.2 (by decide),rfl⟩
  exact Run.refl.checked [.produce [1,2] false,.post,.complete,.dispatch 0 .inside (some 2) [],
    .complete,.dispatch 1 (.later [0,0]) (some 2) [],.arriveDirect 1 0] rfl

/-- Two bytes that are not contiguous go out in a chunk, and are consumed twice. -/
theorem chunk_consumed_twice : ∃ m,
    Run (step ⟨2, 1, 0, 0, 7, 0⟩) (fun _ _ => True) (start ⟨2, 1, 0, 0, 7, 0⟩ [[1], [2]]) m ∧
      m.send.done = 1 ∧ m.send.consumed = 4 :=
  ⟨_,Run.refl.execEvents [.post,.complete] (fun _ _ _ => trivial) rfl,rfl,rfl⟩

end Multicast

end PAMI.Pwq
