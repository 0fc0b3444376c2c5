import PAMI.Protocol.GetOverSend

namespace PAMI.Protocol.GetOverSend

open PAMI.Math PAMI.Datatype Transfer TypeMachine List Option

variable {M : Type*} (pack : M → ℕ → List Byte × M) (width : ℕ)

variable (request : Request) (stale : Stale) (machineOf : List Byte → M) (filler : Byte)

section System

variable {pack width} {At : M → ℕ → Prop} {slice : ℕ → ℕ → List Byte} {request : Request}
  {stale : Stale} {machineOf : List Byte → M} {filler : Byte} {s s' : Get M}

theorem posts_kept {t t' : Transfer M Byte Callback} {e : TransferEvent}
    (hs : t.step pack (run pack width) e = some t') : posts t <+: posts t' := by
  have huse (t : Transfer M Byte Callback) : posts t.use = posts t := by
    rw [use]
    split <;> rfl
  cases e with
  | resume =>
    simp only [Transfer.step] at hs
    split at hs
    · cases hs
    · obtain rfl := some.inj hs
      rw [posts_packAndPost]
      exact ⟨_,congrArg (· ++ _) (huse t).symm⟩
  | complete =>
    simp only [Transfer.step] at hs
    split at hs
    · cases hs
    next post rest hfli =>
      have hpts : posts { t with completed := t.completed ++ [post], inFlight := rest } = posts t := by
        simp [posts,hfli]
      rw [← hpts]
      generalize ({ t with completed := t.completed ++ [post], inFlight := rest } : Transfer M Byte Callback)=u at hs
      split at hs
      · obtain rfl := some.inj hs
        exact prefix_refl _
      · obtain rfl := some.inj hs
        rw [run,completeData]
        split
        · exact (huse u).symm ▸ prefix_refl _
        · dsimp only
          split
          · rw [posts_packAndPost]
            exact ⟨_,congrArg (· ++ _) (huse u).symm⟩
          · split <;> rw [posts_packAndPost] <;> exact ⟨_,congrArg (· ++ _) (huse u).symm⟩

theorem completed_step {t t' : Transfer M Byte Callback} {e : TransferEvent}
    (hs : t.step pack (run pack width) e = some t') (hnod : (t.inFlight.map Post.buffer).Nodup) :
    t'.completed.map Post.payload = t.completed.map Post.payload ++ copies t.inFlight e := by
  have huse (t : Transfer M Byte Callback) : t.use.completed=t.completed := by
    rw [use]
    split <;> rfl
  cases e with
  | resume =>
    simp only [Transfer.step] at hs
    split at hs
    · cases hs
    · obtain rfl := some.inj hs
      rw [copies,append_nil]
      exact congrArg (map Post.payload) (huse t)
  | complete =>
    rw [copies,contents_of_nodup hnod,← map_take,← map_append]
    congr 1
    simp only [Transfer.step] at hs
    split at hs
    · cases hs
    next post rest hfli =>
      rw [hfli,take_succ_cons,take_zero]
      split at hs
      · obtain rfl := some.inj hs
        rfl
      · obtain rfl := some.inj hs
        rw [run,completeData]
        split
        · exact huse _
        · dsimp only
          split
          · exact huse _
          · split <;> exact huse _

/-- What holds of a get of more than three and at most four packets. -/
structure Inv (At : M → ℕ → Prop) (slice : ℕ → ℕ → List Byte) (width : ℕ) (request : Request)
    (s : Get M) : Prop where
  typeBuffer : s.typeBuffer = request.code.take (s.types*width)
  typeRemaining : s.header = true → s.typeRemaining = request.code.length - s.typeBuffer.length
  waiting : s.target = none → s.types*width < request.code.length ∧ s.delivered = 0 ∧ s.copied = []
  header : s.header = false → s.types = 0 ∧ s.target = none
  target : ∀ t, s.target = some t → packetCount width request.code ≤ s.types ∧
    Phases width request.bytes t ∧ Posted At slice width request.bytes t ∧
    s.delivered ≤ (posts t).length
  buffers : ∀ t, s.target = some t → Buffered width t ∧ s.copied = t.completed.map Post.payload
  unpacked : s.origin.unpacked = slice 0 (min request.bytes (s.delivered*width))
  remaining : s.origin.bytesRemaining = request.bytes - min request.bytes (s.delivered*width)
  done : s.origin.done = if request.bytes ≤ s.delivered*width then 1 else 0
  lateUses : s.origin.lateUses = 0

theorem initial_inv (hp : Packs pack At slice) (hbyt : 0 < request.bytes)
    (hcd : request.code ≠ []) : Inv At slice width request (initial request : Get M) := by
  have hzr : min request.bytes (0*width)=0 := by omega
  refine ⟨by simp [initial],fun h => by simp [initial] at h,fun _ => ⟨?_,rfl,rfl⟩,fun _ => ⟨rfl,rfl⟩,
    fun t ht => by simp [initial] at ht,fun t ht => by simp [initial] at ht,?_,?_,?_,rfl⟩
  · show 0*width < request.code.length
    have := length_pos_iff.mpr hcd
    omega
  · show []=slice 0 (min request.bytes (0*width))
    rw [hzr]
    exact (length_eq_zero_iff.mp (hp.slice_length 0 0)).symm
  · show request.bytes=request.bytes-min request.bytes (0*width)
    omega
  · show 0 = if request.bytes≤0*width then 1 else 0
    rw [if_neg (by omega)]

theorem dispatchType_spec (pack : M → ℕ → List Byte × M) (stale : Stale) (machineOf : List Byte → M)
    (filler : Byte) (hwid : 0<width) (hbuf : s.typeBuffer = request.code.take (s.types*width))
    (hrem : s.typeRemaining=request.code.length-s.typeBuffer.length)
    (hlt : s.types*width < request.code.length) :
    (packetCount width request.code ≤ s.types+1 ∧
      dispatchType pack width request stale machineOf (packet filler width request.code s.types) s =
        { s with
          types := s.types+1, typeBuffer := request.code, typeRemaining := 0
          target := some (sendData pack width request.bytes stale.startCount
            (machineOf request.code)) }) ∨
    ((s.types+1)*width < request.code.length ∧
      dispatchType pack width request stale machineOf (packet filler width request.code s.types) s =
        { s with
          types := s.types+1, typeBuffer := request.code.take ((s.types+1)*width)
          typeRemaining := request.code.length -
            (request.code.take ((s.types+1)*width)).length }) := by
  have hrcv : s.typeBuffer ++ (packet filler width request.code s.types).take
      (min width s.typeRemaining) = request.code.take ((s.types+1)*width) := by
    rw [hrem,hbuf]
    exact receive_packet
  have hsc : (s.types+1)*width=s.types*width+width := Nat.succ_mul _ _
  have hlng : s.typeBuffer.length=s.types*width := by
    rw [hbuf,length_take]
    omega
  have hlf : s.typeRemaining-min width s.typeRemaining =
      request.code.length-(request.code.take ((s.types+1)*width)).length := by
    rw [hrem,length_take,hlng]
    omega
  rw [dispatchType]
  by_cases hla : request.code.length≤(s.types+1)*width
  · left
    have hall : request.code.take ((s.types+1)*width)=request.code := take_of_length_le hla
    rw [hall,Nat.sub_self] at hlf
    constructor
    · by_contra hnot
      have hmore := (lt_packetCount hwid).mp (Nat.lt_of_not_le hnot)
      omega
    · simp only [hlf,if_true,hrcv,hall]
  · right
    have hne : ¬ request.code.length-(request.code.take ((s.types+1)*width)).length=0 := by
      rw [length_take]
      omega
    refine ⟨by omega,?_⟩
    simp only [hrcv,hlf,if_neg hne]

theorem Inv.type (hp : Packs pack At slice) (hwid : 0<width) (hlong : width*3 < request.bytes)
    (hfour : request.bytes≤width*4) (hmac : At (machineOf request.code) 0) (h : Inv At slice width request s)
    (hhea : s.header=true) (htyp : s.types < packetCount width request.code) :
    Inv At slice width request (dispatchType pack width request stale machineOf
      (packet filler width request.code s.types) s) := by
  have hnn : s.target=none := by
    cases htar : s.target with
    | none => rfl
    | some t =>
      have := (h.target t htar).1
      omega
  obtain ⟨hlt,hdel,hcop⟩ := h.waiting hnn
  have hnot : ¬ s.header=false := by rw [hhea]; decide
  rcases dispatchType_spec pack stale machineOf filler hwid h.typeBuffer (h.typeRemaining hhea)
    hlt with ⟨hcou,heq⟩ | ⟨hmore,heq⟩
  · rw [heq]
    obtain ⟨hphs,hpst⟩ := sendData_phases hp hmac hlong stale.startCount
    have hbuf := sendData_buffered pack (machineOf request.code) hlong hfour stale.startCount
    refine ⟨?_,fun _ => (Nat.sub_self _).symm,fun hfal => (by cases hfal),
      fun hfal => absurd hfal hnot,fun t ht => ?_,fun t ht => ?_,h.unpacked,h.remaining,h.done,h.lateUses⟩
    · apply (take_of_length_le _).symm
      exact Nat.le_trans (length_le_packetCount hwid) (Nat.mul_le_mul_right width hcou)
    · obtain rfl := some.inj ht
      refine ⟨hcou,hphs,hpst,?_⟩
      show s.delivered ≤ _
      rw [hdel]
      exact Nat.zero_le _
    · obtain rfl := some.inj ht
      refine ⟨hbuf,?_⟩
      show s.copied = _
      rw [hcop,sendData,if_neg (by omega),if_neg (by omega)]
      rfl
  · rw [heq]
    have hno : ∀ t, s.target≠some t := fun t ht => by
      rw [hnn] at ht
      cases ht
    exact ⟨rfl,fun _ => rfl,fun _ => ⟨hmore,hdel,hcop⟩,fun hfal => absurd hfal hnot,
      fun t ht => absurd ht (hno t),fun t ht => absurd ht (hno t),h.unpacked,h.remaining,h.done,h.lateUses⟩

theorem Inv.data (filler : Byte) (hp : Packs pack At slice) (h : Inv At slice width request s)
    {t : Transfer M Byte Callback} (ht : s.target = some t) {post : Post Byte Callback}
    (hps : (posts t)[s.delivered]? = some post) :
    Inv At slice width request { s with
      delivered := s.delivered+1
      origin := dispatchData width (packet filler width post.payload 0) s.origin } := by
  obtain ⟨hcou,hphs,hpst,hle⟩ := h.target t ht
  obtain ⟨hpay,hlt⟩ := hpst.cut _ _ hps
  obtain ⟨hdel,-⟩ := List.getElem?_eq_some_iff.mp hps
  have hmin : min request.bytes (s.delivered*width)=s.delivered*width := by omega
  have hunp := h.unpacked
  have hrem := h.remaining
  have hdn := h.done
  rw [hmin] at hunp hrem
  rw [if_neg (by omega)] at hdn
  have hsc : (s.delivered+1)*width=s.delivered*width+width := Nat.succ_mul _ _
  have hrcv : s.origin.unpacked ++ (packet filler width post.payload 0).take
      (min width s.origin.bytesRemaining) = slice 0 (min request.bytes ((s.delivered+1)*width)) := by
    have hlng : s.origin.unpacked.length=s.delivered*width := by rw [hunp,hp.slice_length]
    have hsin : receive width request.bytes s.origin.unpacked (packet filler width post.payload 0) =
        s.origin.unpacked ++ post.payload :=
      receive_single (by rw [hpay,hp.slice_length,hlng])
    rw [receive,hlng,← hrem] at hsin
    rw [hsin,hunp,hpay]
    have hnx : min request.bytes ((s.delivered+1)*width) =
        s.delivered*width+min width (request.bytes-s.delivered*width) := by omega
    rw [hnx,hp.slice_add,zero_add]
  have hlf : s.origin.bytesRemaining-min width s.origin.bytesRemaining =
      request.bytes-min request.bytes ((s.delivered+1)*width) := by
    rw [hrem]
    omega
  have hwait : s.target=none → False := fun hnn => by
    rw [ht] at hnn
    cases hnn
  have hhea : s.header=false → False := fun hfal => hwait (h.header hfal).2
  rw [dispatchData]
  by_cases hend : s.origin.bytesRemaining-min width s.origin.bytesRemaining=0
  · simp only [hend,if_true,hdn,h.lateUses,hrcv]
    refine ⟨h.typeBuffer,h.typeRemaining,fun hnn => (hwait hnn).elim,
      fun hfal => (hhea hfal).elim,fun t' ht' => ?_,h.buffers,rfl,?_,?_,rfl⟩
    · obtain rfl := some.inj (ht.symm.trans ht')
      exact ⟨hcou,hphs,hpst,hdel⟩
    · show 0=request.bytes-min request.bytes ((s.delivered+1)*width)
      omega
    · show 0+1 = if request.bytes≤(s.delivered+1)*width then 1 else 0
      rw [if_pos (by omega)]
  · simp only [if_neg hend,hdn,h.lateUses,hrcv,if_true]
    refine ⟨h.typeBuffer,h.typeRemaining,fun hnn => (hwait hnn).elim,
      fun hfal => (hhea hfal).elim,fun t' ht' => ?_,h.buffers,rfl,hlf,?_,rfl⟩
    · obtain rfl := some.inj (ht.symm.trans ht')
      exact ⟨hcou,hphs,hpst,hdel⟩
    · show 0 = if request.bytes≤(s.delivered+1)*width then 1 else 0
      rw [if_neg (by omega)]

/-- What is dispatched is what the post held: no buffer was filled meanwhile. -/
theorem Inv.arrives (h : Inv At slice width request s) {t : Transfer M Byte Callback} (ht : s.target = some t)
    {payload : List Byte} (hpay : (s.copied ++ contents t.inFlight)[s.delivered]? = some payload) :
    ∃ post, (posts t)[s.delivered]? = some post ∧ post.payload=payload := by
  obtain ⟨hbuf,hcop⟩ := h.buffers t ht
  rw [hcop,contents_of_nodup hbuf.nodup,← map_append,getElem?_map] at hpay
  exact Option.map_eq_some_iff.mp hpay

theorem Inv.step (hp : Packs pack At slice) (hwid : 0<width) (hlong : width*3 < request.bytes)
    (hfour : request.bytes≤width*4) (hmac : At (machineOf request.code) 0) (h : Inv At slice width request s) {e : Event}
    (hs : step pack width request stale machineOf filler s e = some s') :
    Inv At slice width request s' := by
  cases e with
  | header =>
    simp only [GetOverSend.step] at hs
    split at hs
    · cases hs
    next hhea =>
      obtain rfl := some.inj hs
      obtain ⟨htyp,hnn⟩ := h.header (by simpa using hhea)
      refine ⟨h.typeBuffer,fun _ => ?_,h.waiting,fun hfal => (by cases hfal),h.target,h.buffers,
        h.unpacked,h.remaining,h.done,h.lateUses⟩
      show request.code.length=request.code.length-s.typeBuffer.length
      rw [h.typeBuffer,htyp]
      simp
  | type =>
    simp only [GetOverSend.step] at hs
    split at hs
    next hif =>
      obtain rfl := some.inj hs
      exact h.type hp hwid hlong hfour hmac hif.1 hif.2
    · cases hs
  | target e =>
    cases htar : s.target with
    | none => simp [GetOverSend.step,htar] at hs
    | some t =>
      simp only [GetOverSend.step,htar] at hs
      obtain ⟨t',ht',rfl⟩ := Option.map_eq_some_iff.mp hs
      obtain ⟨hcou,hphs,hpst,hle⟩ := h.target t htar
      obtain ⟨hbuf,hcop⟩ := h.buffers t htar
      obtain ⟨hphs',hpst',-⟩ := hphs.step hp hwid hpst ht'
      refine ⟨h.typeBuffer,h.typeRemaining,fun hnn => (by cases hnn),fun hfal => ?_,?_,?_,
        h.unpacked,h.remaining,h.done,h.lateUses⟩
      · have hnn := (h.header hfal).2
        rw [htar] at hnn
        cases hnn
      · intro u hu
        obtain rfl := some.inj hu
        exact ⟨hcou,hphs',hpst',le_trans hle (posts_kept ht').length_le⟩
      · intro u hu
        obtain rfl := some.inj hu
        refine ⟨hbuf.step hphs ht',?_⟩
        rw [completed_step ht' hbuf.nodup,hcop]
  | data =>
    cases htar : s.target with
    | none => simp [GetOverSend.step,htar] at hs
    | some t =>
      simp only [GetOverSend.step,htar] at hs
      split at hs
      · cases hs
      next payload hpay =>
        obtain rfl := some.inj hs
        obtain ⟨post,hps,rfl⟩ := h.arrives htar hpay
        have hda := h.data filler hp htar hps
        rw [htar] at hda
        exact hda

theorem Inv.transmits (hwid : 0<width) (h : Inv At slice width request s)
    (hstl : stale.isContiguous=false) :
    Transmits pack width request stale machineOf filler slice s := by
  refine ⟨fun t ht => ?_,fun t ht => (h.buffers t ht).1.overwritten,⟨_,min_le_left _ _,h.unpacked⟩,
    ⟨?_,h.lateUses⟩,?_,?_⟩
  · obtain ⟨-,hphs,hpst,-⟩ := h.target t ht
    refine ⟨hphs.exact hpst,?_⟩
    rw [typeReleases,hstl]
    rfl
  · rw [h.done]
    split <;> omega
  · intro hdn
    rw [h.done] at hdn
    split at hdn
    next hall => rw [h.unpacked,min_eq_left hall]
    · cases hdn
  · intro hstu
    have hhea : s.header=true := by
      by_contra hfal
      have hsp := hstu .header
      simp only [GetOverSend.step,if_neg hfal] at hsp
      cases hsp
    cases htar : s.target with
    | none =>
      have hmore := (lt_packetCount hwid).mpr (h.waiting htar).1
      have hsp := hstu .type
      simp only [GetOverSend.step,if_pos (And.intro hhea hmore)] at hsp
      cases hsp
    | some t =>
      obtain ⟨-,hphs,hpst,hle⟩ := h.target t htar
      have hen : t.ends=1 := by
        by_contra hne
        obtain ⟨e,t',ht'⟩ := hphs.enabled pack hne
        have hsp := hstu (.target e)
        simp [GetOverSend.step,htar,ht'] at hsp
      have hdel : s.delivered=(posts t).length := by
        by_contra hne
        obtain ⟨hbuf,hcop⟩ := h.buffers t htar
        have hlt : s.delivered<(s.copied ++ contents t.inFlight).length := by
          rw [hcop,contents_of_nodup hbuf.nodup,← map_append,length_map]
          exact lt_of_le_of_ne hle hne
        have hsp := hstu .data
        simp only [GetOverSend.step,htar,List.getElem?_eq_getElem hlt] at hsp
        cases hsp
      refine ⟨?_,t,rfl,hen⟩
      have hall : request.bytes≤(posts t).length*width := by
        rcases hphs with hfill | hclo | heed
        · rw [hfill.ends] at hen
          cases hen
        · exact hclo.all
        · exact heed.all
      rw [h.done,if_pos (by rw [hdel]; exact hall)]

theorem initial_reaches_target (width : ℕ) (request : Request) (pack : M → ℕ → List Byte × M) (stale : Stale)
    (machineOf : List Byte → M) (filler : Byte) (hwid : 0<width) (hcd : request.code ≠ []) :
    ∃ s, Run (step pack width request stale machineOf filler) (fun _ _ => True)
        (initial request) s ∧
      s.target = some (sendData pack width request.bytes stale.startCount (machineOf request.code)) := by
  have hass (n : ℕ) : ∀ s : Get M, Run (step pack width request stale machineOf filler)
        (fun _ _ => True) (initial request) s → s.header=true →
      s.typeBuffer=request.code.take (s.types*width) →
      s.typeRemaining=request.code.length-s.typeBuffer.length →
      s.types*width < request.code.length → packetCount width request.code=s.types+n →
      ∃ s', Run (step pack width request stale machineOf filler) (fun _ _ => True)
          (initial request) s' ∧
        s'.target=some (sendData pack width request.bytes stale.startCount (machineOf request.code)) := by
    induction n with
    | zero =>
      intro s _ _ _ _ hlt hn
      have := (lt_packetCount hwid).mpr hlt
      omega
    | succ n ih =>
      intro s hrun hhea hbuf hrem hlt hn
      have hmore := (lt_packetCount hwid).mpr hlt
      have hs : step pack width request stale machineOf filler s .type =
          some (dispatchType pack width request stale machineOf
            (packet filler width request.code s.types) s) := if_pos ⟨hhea,hmore⟩
      have hrun' := hrun.step trivial hs
      rcases dispatchType_spec pack stale machineOf filler hwid hbuf hrem hlt with ⟨-,heq⟩ | ⟨hlt',heq⟩
      · rw [heq] at hrun'
        exact ⟨_,hrun',rfl⟩
      · rw [heq] at hrun'
        exact ih _ hrun' hhea rfl rfl hlt' (by simp only; omega)
  have hlng := length_pos_iff.mpr hcd
  have hs : step pack width request stale machineOf filler (initial request) .header =
      some (dispatchHeader request (initial request)) := rfl
  refine hass (packetCount width request.code) _ (Run.refl.step trivial hs) rfl ?_ rfl ?_ ?_
  · simp [dispatchHeader,initial]
  · show 0*width < request.code.length
    omega
  · exact (zero_add _).symm

theorem Run.target {t t' : Transfer M Byte Callback}
    (hrun : Run (fun (t : Transfer M Byte Callback) e => t.step pack (run pack width) e)
      (fun _ _ => True) t t') (ht : s.target = some t) :
    ∃ s', Run (step pack width request stale machineOf filler) (fun _ _ => True) s s' ∧ s'.target = some t' := by
  induction hrun with
  | refl => exact ⟨s,.refl,ht⟩
  | @step u u' e _ _ hs ih =>
    obtain ⟨s1,hrun1,ht1⟩ := ih
    refine ⟨{ s1 with target := some u', copied := s1.copied ++ copies u.inFlight e },
      hrun1.step (e := .target e) trivial ?_,rfl⟩
    simp only [GetOverSend.step,ht1,hs,Option.map_some]

theorem Phases.run_end (hp : Packs pack At slice) (hwid : 0<width) {bytes : ℕ}
    {t : Transfer M Byte Callback} (h : Phases width bytes t) (hpst : Posted At slice width bytes t) :
    ∃ t', Run (fun (t : Transfer M Byte Callback) e => t.step pack (run pack width) e)
      (fun _ _ => True) t t' ∧ t'.ends=1 := by
  generalize hn : work t=n
  induction n using Nat.strong_induction_on generalizing t with
  | _ n ih =>
    by_cases hen : t.ends=1
    · exact ⟨t,.refl,hen⟩
    · obtain ⟨e,t1,hs⟩ := h.enabled pack hen
      obtain ⟨h1,hpst1,hwr⟩ := h.step hp hwid hpst hs
      obtain ⟨t',hrun,hen'⟩ := ih (work t1) (hn ▸ hwr) h1 hpst1 rfl
      exact ⟨t',(Run.refl.step trivial hs).trans hrun,hen'⟩

section

variable {t : Transfer M Byte Callback} {k : ℕ} {post : Post Byte Callback} {rest : List (Post Byte Callback)}
  (hp : Packs pack At slice) (hsn : t.Sent At slice 0 k) (hfli : t.inFlight = post :: rest)
  (hps : post.callback = some .completeData)
include hp hsn hfli hps

theorem complete_last (hen : t.ends=0) (hne : t.remaining≠0) (hlf : t.remaining≤width) :
    ∃ t' last, t.step pack (run pack width) .complete = some t' ∧ t'.inFlight = rest ++ [last] ∧
      t'.remaining=0 ∧ t'.ends=0 ∧ t'.Sent At slice 0 (k+t.remaining) := by
  have hsn' : Transfer.Sent At slice 0 k { t with
      starts := t.starts+1, remaining := t.remaining-t.remaining
      completed := t.completed ++ [post], inFlight := rest } :=
    hsn.completes hfli rfl rfl rfl
  refine ⟨packAndPost pack (t.starts &&& 1) t.remaining (some .completeData) { t with
      starts := t.starts+1, remaining := t.remaining-t.remaining
      completed := t.completed ++ [post], inFlight := rest },
    ⟨some (t.starts &&& 1),(pack t.machine t.remaining).1,some .completeData⟩,?_,rfl,
    Nat.sub_self t.remaining,hen,
    hsn'.packAndPost hp (t.starts &&& 1) t.remaining (some .completeData)⟩
  simp only [Transfer.step,hfli,hps,run,completeData,if_neg hne,use,if_pos hen,if_pos hlf]

theorem complete_next (hen : t.ends=0) (hmore : width<t.remaining) (htwo : t.remaining≤width*2) :
    ∃ t', t.step pack (run pack width) .complete = some t' ∧ t'.Sent At slice 0 (k+width) := by
  have hne : t.remaining≠0 := by omega
  have hnot : ¬ t.remaining≤width := by omega
  have hsn' : Transfer.Sent At slice 0 k { t with
      starts := t.starts+1, remaining := t.remaining-width
      completed := t.completed ++ [post], inFlight := rest } :=
    hsn.completes hfli rfl rfl rfl
  refine ⟨_,?_,hsn'.packAndPost hp (t.starts &&& 1) width none⟩
  simp only [Transfer.step,hfli,hps,run,completeData,if_neg hne,use,if_pos hen,if_neg hnot,if_pos htwo]

end

theorem sendData_short_fails (hp : Packs pack At slice) {machine : M} (hmac : At machine 0)
    {bytes : ℕ} (hbyt : 0<bytes) (hsho : bytes≤width*3) (startCount : ℕ) :
    ∃ t, Run (fun (t : Transfer M Byte Callback) e => t.step pack (run pack width) e)
      (fun _ _ => True) (sendData pack width bytes startCount machine) t ∧ ¬ t.Exact slice 0 bytes := by
  have hsta (remaining startCount : ℕ) :
      Transfer.Sent At slice 0 0 (start machine remaining startCount [] :
        Transfer M Byte Callback) := Transfer.Sent.start hp hmac (by simp) _ _
  have hlong {t : Transfer M Byte Callback} {k : ℕ} (hsn : t.Sent At slice 0 k) (hk : bytes<k) :
      ¬ t.Exact slice 0 bytes := by
    intro h
    obtain ⟨k',hk',hsn'⟩ := h.sent
    have hlng := hsn.length hp
    rw [hsn',hp.slice_length] at hlng
    omega
  rw [sendData]
  by_cases hone : bytes≤width
  · -- the only packet completes, and is packed once more
    rw [if_pos hone]
    have hfir := (hsta bytes startCount).packAndPost hp 0 bytes (some .completeData)
    obtain ⟨t,-,hs,-,-,-,hsn⟩ := complete_last hp hfir rfl rfl rfl (show bytes≠0 by omega) hone
    refine ⟨t,Run.refl.step trivial hs,hlong hsn ?_⟩
    show bytes<0+bytes+bytes
    omega
  · rw [if_neg hone]
    by_cases htwo : bytes≤width*2
    · -- the second packet completes, and one more is packed
      rw [if_pos htwo]
      have hfir := (hsta bytes startCount).packAndPost hp 0 width none
      have hfir' : Transfer.Sent At slice 0 (0+width)
          { (start machine bytes startCount []).packAndPost pack 0 width
            (none : Option Callback) with second := none } := hfir.congr rfl rfl
      have hsec := hfir'.packAndPost hp 1 (bytes-width) (some .completeData)
      obtain ⟨t,hrun,⟨post,hfli,hps⟩,hen,hrem,hsn⟩ : ∃ t,
          Run (fun (t : Transfer M Byte Callback) e => t.step pack (run pack width) e)
            (fun _ _ => True) { (start machine bytes startCount []).packAndPost pack 0 width
              none with second := some (bytes-width, some .completeData) } t ∧
          (∃ post, t.inFlight = [post] ∧ post.callback=some Callback.completeData) ∧
          t.ends=0 ∧ t.remaining=bytes ∧ t.Sent At slice 0 (0+width+(bytes-width)) := by
        refine ⟨_,Run.refl.execEvents [.resume,.complete] (fun _ _ _ => trivial) rfl,⟨_,rfl,rfl⟩,rfl,rfl,?_⟩
        exact hsec.congr rfl rfl
      have hmore : width<t.remaining := by omega
      obtain ⟨t',hs,hsn'⟩ := complete_next hp hsn hfli hps hen hmore (by omega)
      exact ⟨t',hrun.step trivial hs,hlong hsn' (by omega)⟩
    · -- the first packet lets post what is left, the second one cleans up while that is in flight
      rw [if_neg htwo]
      have hfir := (hsta (bytes-width*2) 2).packAndPost hp 0 width (some .completeData)
      have hfir' : Transfer.Sent At slice 0 (0+width)
          { (start machine (bytes-width*2) 2 []).packAndPost pack 0 width
            (some Callback.completeData) with second := none } := hfir.congr rfl rfl
      have hsec := hfir'.packAndPost hp 1 width (some .completeData)
      have hlf : bytes-width*2≤width := by omega
      obtain ⟨t,last,hs,hfli,hrem,hen,-⟩ := complete_last hp hsec rfl rfl
        rfl (show bytes-width*2≠0 by omega) hlf
      have hres : Transfer.step pack (run pack width)
          { (start machine (bytes-width*2) 2 []).packAndPost pack 0 width
            (some Callback.completeData) with second := some (width, some .completeData) } .resume =
          some ({ (start machine (bytes-width*2) 2 []).packAndPost pack 0 width
            (some Callback.completeData) with second := none }.packAndPost pack 1 width
            (some .completeData)) := rfl
      have hcln : ∃ t', t.step pack (run pack width) .complete = some t' ∧ t'.ends=1 ∧ t'.inFlight = [last] := by
        obtain ⟨post,hfli,hps⟩ : ∃ post, t.inFlight = [post,last] ∧
            post.callback=some .completeData := ⟨_,hfli,rfl⟩
        simp [Transfer.step,hfli,hps,run,completeData,hrem,finish,use,hen]
      obtain ⟨t',hs',hen',hfli'⟩ := hcln
      refine ⟨t',((Run.refl.step trivial hres).step trivial hs).step trivial hs',fun h => ?_⟩
      have hemp := (h.ended hen').1
      rw [hfli'] at hemp
      cases hemp

end System

section Typed

variable {fresh : ℕ → Memory} {heap : Word → TypeCode} {contigMax : TypeCode} {c : Code}

/-- A typed get does what it is for exactly if it has more than three and at most four packets and the state that
the target allocates is not marked as that of a contiguous transfer. -/
theorem typed_get_iff (typeOf : List Byte → TypeCode) (request : Request)
    (h : Represents (typeOf request.code) c) (hpos : 0 < c.size) (hsi : c.size < 2^64)
    (hmax : TypeCode.contig fresh heap 1 = some contigMax) (user : Word → Byte) (P : Packer user)
    {width : ℕ} (hwid : 0 < width) (hbyt : 1 ≤ request.bytes) (hcd : request.code ≠ [])
    (stale : Stale) (filler : Byte) :
    (∀ s, Run (step P.pack width request stale (new contigMax ∘ typeOf) filler) (fun _ _ => True) (initial request) s →
      Transmits P.pack width request stale (new contigMax ∘ typeOf) filler (packedBytes user c) s) ↔
      (width*3 < request.bytes ∧ request.bytes ≤ width*4) ∧ stale.isContiguous = false := by
  obtain ⟨At,hp,hmac,-⟩ := P.packs h hpos hsi hmax
  constructor
  · intro htra
    obtain ⟨s,hrun,htar⟩ := initial_reaches_target width request P.pack stale
      (new contigMax ∘ typeOf) filler hwid hcd
    have hlong : width*3 < request.bytes := by
      by_contra hsho
      obtain ⟨t,hrun',hfai⟩ := sendData_short_fails hp hmac hbyt (Nat.le_of_not_lt hsho)
        stale.startCount
      obtain ⟨s',hrun'',ht⟩ := Run.target hrun' htar
      exact hfai ((htra s' (hrun.trans hrun'')).target t ht).1
    have hfour : request.bytes≤width*4 := by
      by_contra hmore
      obtain ⟨t,hrun',hov⟩ := sendData_overwrites P.pack ((new contigMax ∘ typeOf) request.code)
        (Nat.lt_of_not_le hmore) stale.startCount
      obtain ⟨s',hrun'',ht⟩ := Run.target hrun' htar
      have hnot := (htra s' (hrun.trans hrun'')).overwritten t ht
      rw [hov] at hnot
      cases hnot
    refine ⟨⟨hlong,hfour⟩,?_⟩
    by_contra hcon
    obtain ⟨hphs,hpst⟩ := sendData_phases hp hmac hlong stale.startCount
    obtain ⟨t,hrun',hen⟩ := hphs.run_end hp hwid hpst
    obtain ⟨s',hrun'',ht⟩ := Run.target hrun' htar
    have hrel := ((htra s' (hrun.trans hrun'')).target t ht).2
    rw [typeReleases,if_pos (by simpa using hcon),hen] at hrel
    cases hrel
  · intro ⟨⟨hlong,hfour⟩,hstl⟩ s hrun
    have hinv : Inv At (packedBytes user c) width request s := by
      apply hrun.invariant (initial_inv hp hbyt hcd)
      intro s e s' hinv _ hs
      exact hinv.step hp hwid hlong hfour hmac hs
    exact hinv.transmits hwid hstl

theorem typed_get_iff_four_packets : ∃ P : Packer fun _ => 0, ∃ c, Represents fourByteBlocks c ∧
    ∀ s, Run (step P.pack 512 ⟨2000, [0]⟩ ⟨0, false⟩ (new contigMaxType ∘ fun _ => fourByteBlocks) 0) (fun _ _ => True)
        (initial ⟨2000, [0]⟩) s →
      Transmits P.pack 512 ⟨2000, [0]⟩ ⟨0, false⟩
        (new contigMaxType ∘ fun _ => fourByteBlocks) 0 (packedBytes (fun _ => 0) c) s := by
  obtain ⟨P⟩ : Nonempty (Packer fun _ => 0) := inferInstance
  obtain ⟨c,hrep,hsi⟩ := fourByteBlocks_represents
  refine ⟨P,c,hrep,?_⟩
  exact (typed_get_iff (fun _ => fourByteBlocks) ⟨2000,[0]⟩ hrep (by omega) (by omega) contigMaxType_eq
    (fun _ => 0) P (by decide) (by decide) (by simp) ⟨0,false⟩ 0).mpr ⟨⟨by decide,by decide⟩,rfl⟩

/-- A get of one packet posts it twice. -/
theorem typed_get_one_packet : ∃ P : Packer fun _ => 0, ∃ c, Represents fourByteBlocks c ∧ ∃ s,
    Run (step P.pack 512 ⟨8, [0]⟩ ⟨0, false⟩ (new contigMaxType ∘ fun _ => fourByteBlocks) 0) (fun _ _ => True)
      (initial ⟨8, [0]⟩) s ∧
    ∃ t, s.target = some t ∧ ¬ t.Exact (packedBytes (fun _ => 0) c) 0 8 := by
  obtain ⟨P⟩ : Nonempty (Packer fun _ => 0) := inferInstance
  obtain ⟨c,hrep,hsi⟩ := fourByteBlocks_represents
  obtain ⟨At,hp,hmac,-⟩ := P.packs hrep (by omega) (by omega) contigMaxType_eq
  obtain ⟨s,hrun,htar⟩ := initial_reaches_target 512 ⟨8,[0]⟩ P.pack
    ⟨0,false⟩ (new contigMaxType ∘ fun _ => fourByteBlocks) 0 (by decide) (by simp)
  have hsho : 8≤512*3 := by decide
  obtain ⟨t,hrun',hfai⟩ := sendData_short_fails hp hmac (show 0<8 by decide) hsho 0
  obtain ⟨s',hrun'',ht⟩ := Run.target hrun' htar
  exact ⟨P,c,hrep,s',hrun.trans hrun'',t,ht,hfai⟩

end Typed

end PAMI.Protocol.GetOverSend
