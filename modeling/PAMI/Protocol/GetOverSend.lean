import PAMI.Datatype.PackUnpack
import PAMI.Math.Packing

namespace PAMI.Protocol.GetOverSend

open PAMI.Math PAMI.Datatype Transfer List Option Nat

/-- The only event function of the posts of a get, `complete_data`. -/
inductive Callback where
  | completeData
  deriving DecidableEq, Repr

/-- The state of a typed get at its origin; beside it, the packed bytes that were unpacked, the calls of
`done_fn`, after each of which the state is returned, and the uses of the state after that. -/
structure Origin where
  bytesRemaining : ℕ
  unpacked : List Byte
  done : ℕ
  lateUses : ℕ
  deriving Repr

/-- What a typed get asks for: so many bytes of a type, which is sent as its code. -/
structure Request where
  bytes : ℕ
  code : List Byte
  deriving Repr

/-- What the state that the target allocates happens to hold in the fields nobody sets. -/
structure Stale where
  startCount : ℕ
  isContiguous : Bool
  deriving Repr

/-- A typed get: which packets of the origin have been dispatched at the target, the type assembled there, its transfer,
what the posts that completed took from their buffers, how many have been dispatched at the origin, and the origin. -/
structure Get (M : Type*) where
  header : Bool
  types : ℕ
  typeBuffer : List Byte
  typeRemaining : ℕ
  target : Option (Transfer M Byte Callback)
  copied : List (List Byte)
  delivered : ℕ
  origin : Origin

/-- The dispatch of a packet of the header, of the type or of the data, or an event of the target's
transfer. -/
inductive Event where
  | header
  | type
  | target (e : TransferEvent)
  | data
  deriving DecidableEq, Repr

variable {M : Type*} (pack : M → ℕ → List Byte × M) (width : ℕ)

/-- `send_data` of the target up to its first post. -/
def sendData (bytes startCount : ℕ) (machine : M) : Transfer M Byte Callback :=
  let s := start machine bytes startCount []
  if bytes ≤ width then s.packAndPost pack 0 bytes (some .completeData)
  else if bytes ≤ width*2 then
    { s.packAndPost pack 0 width none with second := some (bytes - width, some .completeData) }
  else
    let s := { s with starts := 2, remaining := s.remaining - width*2 }
    { s.packAndPost pack 0 width (some .completeData) with
      second := some (width, some .completeData) }

/-- `complete_data`; where it cleans up, the state returns to the allocator. -/
def completeData (s : Transfer M Byte Callback) : Transfer M Byte Callback :=
  if s.remaining = 0 then s.finish
  else
    let s := s.use
    let which := s.starts &&& 1
    let s := { s with starts := s.starts + 1 }
    if s.remaining ≤ width then
      { s with remaining := s.remaining - s.remaining }.packAndPost pack which s.remaining
        (some .completeData)
    else if s.remaining ≤ width*2 then
      { s with remaining := s.remaining - width }.packAndPost pack which width none
    else
      { s with remaining := s.remaining - width }.packAndPost pack which width (some .completeData)

def run : Callback → Transfer M Byte Callback → Transfer M Byte Callback
  | .completeData => completeData pack width

/-- What is in the buffer of a post once the later posts have been packed: the device has only its address. -/
def content (post : Post Byte Callback) (later : List (Post Byte Callback)) : List Byte :=
  later.foldl (fun bytes q =>
    if q.buffer = post.buffer then (q.payload ++ bytes.drop q.payload.length).take bytes.length else bytes) post.payload

def contents : List (Post Byte Callback) → List (List Byte)
  | [] => []
  | post :: later => content post later :: contents later

/-- The oldest post takes its bytes from the buffer when it completes, if it has not before. -/
def copies (inFlight : List (Post Byte Callback)) : TransferEvent → List (List Byte)
  | .complete => (contents inFlight).take 1
  | .resume => []

/-- How often the clean-up has destroyed the type machine and freed the type buffer. -/
def typeReleases (stale : Stale) (s : Transfer M Byte Callback) : ℕ :=
  if stale.isContiguous then 0 else s.ends

/-- `dispatch_data`, for a packet which is reported with the full payload size. -/
def dispatchData (payload : List Byte) (o : Origin) : Origin :=
  let bytesToCopy := min width o.bytesRemaining
  let o := { o with
    bytesRemaining := o.bytesRemaining - bytesToCopy
    unpacked := o.unpacked ++ payload.take bytesToCopy
    lateUses := if o.done = 0 then o.lateUses else o.lateUses + 1 }
  if o.bytesRemaining = 0 then { o with done := o.done + 1 } else o

variable (request : Request) (stale : Stale) (machineOf : List Byte → M) (filler : Byte)

/-- After `get` and its `send_envelope`. -/
def initial : Get M := ⟨false, 0, [], 0, none, [], 0, ⟨request.bytes, [], 0, 0⟩⟩

def dispatchHeader (s : Get M) : Get M :=
  { s with header := true, typeRemaining := request.code.length }

/-- `dispatch_type`: with the last packet the machine is made and the data sent. -/
def dispatchType (payload : List Byte) (s : Get M) : Get M :=
  let bytesToCopy := min width s.typeRemaining
  let s := { s with
    types := s.types + 1
    typeBuffer := s.typeBuffer ++ payload.take bytesToCopy
    typeRemaining := s.typeRemaining - bytesToCopy }
  if s.typeRemaining = 0 then
    let machine := machineOf s.typeBuffer
    { s with target := some (sendData pack width request.bytes stale.startCount machine) }
  else s

/-- One event. Packets are dispatched in the order of their posts; a packet of the target is not longer
than a payload. -/
def step (s : Get M) : Event → Option (Get M)
  | .header => if s.header then none else some (dispatchHeader request s)
  | .type =>
    if s.header ∧ s.types < packetCount width request.code then
      some (dispatchType pack width request stale machineOf (packet filler width request.code s.types) s)
    else none
  | .target e =>
    match s.target with
    | none => none
    | some t =>
      (t.step pack (run pack width) e).map fun t' => { s with target := some t', copied := s.copied ++ copies t.inFlight e }
  | .data =>
    match s.target with
    | none => none
    | some t =>
      match (s.copied ++ contents t.inFlight)[s.delivered]? with
      | none => none
      | some payload => some { s with
          delivered := s.delivered + 1
          origin := dispatchData width (packet filler width payload 0) s.origin }

/-- What a typed get is for: the target posts the bytes of the type, fills no buffer in flight, and returns its state and
the type once, after its last post; the origin unpacks them and calls `done_fn` once; and both happen in the end. -/
structure Transmits (slice : ℕ → ℕ → List Byte) (s : Get M) : Prop where
  target : ∀ t, s.target = some t → t.Exact slice 0 request.bytes ∧ typeReleases stale t = t.ends
  overwritten : ∀ t, s.target = some t → t.overwritten = false
  unpacked : ∃ k ≤ request.bytes, s.origin.unpacked = slice 0 k
  done_le : s.origin.done ≤ 1 ∧ s.origin.lateUses = 0
  done : s.origin.done = 1 → s.origin.unpacked = slice 0 request.bytes
  enabled : (∀ e, step pack width request stale machineOf filler s e = none) →
    s.origin.done = 1 ∧ ∃ t, s.target = some t ∧ t.ends = 1

section Target

variable {pack width} {At : M → ℕ → Prop} {slice : ℕ → ℕ → List Byte} {bytes : ℕ}
  {t t' : Transfer M Byte Callback} {e : TransferEvent}

def posts (t : Transfer M Byte Callback) : List (Post Byte Callback) := t.completed ++ t.inFlight

/-- The posts are full packets of the message, up to its end. -/
structure Posted (At : M → ℕ → Prop) (slice : ℕ → ℕ → List Byte) (width bytes : ℕ)
    (t : Transfer M Byte Callback) : Prop where
  sent : t.Sent At slice 0 (min bytes ((posts t).length*width))
  cut : ∀ i post, (posts t)[i]? = some post →
    post.payload = slice (i*width) (min width (bytes - i*width)) ∧ i*width < bytes

theorem Posted.congr (h : Posted At slice width bytes t) (hmac : t'.machine=t.machine)
    (hpts : posts t' = posts t) : Posted At slice width bytes t' := by
  refine ⟨?_,?_⟩
  · rw [hpts]
    exact h.sent.congr hmac hpts
  · rw [hpts]
    exact h.cut

theorem posts_packAndPost (buffer n : ℕ) (callback : Option Callback) :
    posts (t.packAndPost pack buffer n callback) = posts t ++ [⟨some buffer,(pack t.machine n).1,callback⟩] :=
  (append_assoc _ _ _).symm

theorem Posted.packAndPost (hp : Packs pack At slice) (h : Posted At slice width bytes t)
    (hlt : (posts t).length*width<bytes) (buffer : ℕ) (callback : Option Callback) {n : ℕ}
    (hn : n = min width (bytes-(posts t).length*width)) :
    Posted At slice width bytes (t.packAndPost pack buffer n callback) := by
  have hmin : min bytes ((posts t).length*width)=(posts t).length*width := by omega
  have hsn := h.sent
  rw [hmin] at hsn
  refine ⟨?_,?_⟩
  · have hsn' := hsn.packAndPost hp buffer n callback
    have hlng : min bytes ((posts (t.packAndPost pack buffer n callback)).length*width) =
        (posts t).length*width+n := by
      rw [posts_packAndPost,length_append,length_singleton,succ_mul]
      omega
    rw [hlng]
    exact hsn'
  · intro i post hi
    rw [posts_packAndPost] at hi
    by_cases hold : i<(posts t).length
    · rw [List.getElem?_append_left hold] at hi
      exact h.cut i post hi
    · rw [List.getElem?_append_right (by omega)] at hi
      obtain rfl : i=(posts t).length := by
        by_contra hne
        obtain ⟨j,hj⟩ : ∃ j, i-(posts t).length=j+1 := ⟨i-(posts t).length-1,by omega⟩
        rw [hj] at hi
        simp at hi
      rw [Nat.sub_self,List.getElem?_cons_zero] at hi
      obtain rfl := some.inj hi
      have hsli := (hp.pack t.machine _ n hsn.machine).1
      rw [zero_add] at hsli
      exact ⟨by rw [hsli,hn],hlt⟩

/-- The callbacks that are still to come, with that of the second post of the caller. -/
def pending (t : Transfer M Byte Callback) : ℕ :=
  t.inFlight.countP (·.callback.isSome) + if t.second.isSome then 1 else 0

/-- What the second post of the caller adds, if it is to come. -/
def toCome (width : ℕ) (t : Transfer M Byte Callback) : ℕ := if t.second.isSome then width else 0

/-- There is something left to pack: for two packets in flight or to come while that is more than a
packet, for one of them else. -/
structure Filling (width bytes : ℕ) (t : Transfer M Byte Callback) : Prop where
  second : t.second = none ∨ t.second = some (width, some .completeData)
  ends : t.ends = 0
  left : 0 < t.remaining
  balance : (posts t).length*width + toCome width t + t.remaining = bytes
  pending : pending t = if t.remaining ≤ width then 1 else 2

/-- The last packet has been posted; its completion is the last one. -/
structure Closing (width bytes : ℕ) (t : Transfer M Byte Callback) : Prop where
  second : t.second = none
  ends : t.ends = 0
  left : t.remaining = 0
  all : bytes ≤ (posts t).length*width
  inFlight : ∃ before last, t.inFlight = before ++ [last] ∧ (∀ q ∈ before, q.callback = none) ∧
    last.callback = some .completeData

/-- The state has been returned. -/
structure Ended (width bytes : ℕ) (t : Transfer M Byte Callback) : Prop where
  second : t.second = none
  ends : t.ends = 1
  all : bytes ≤ (posts t).length*width
  inFlight : t.inFlight = []

def Phases (width bytes : ℕ) (t : Transfer M Byte Callback) : Prop :=
  Filling width bytes t ∨ Closing width bytes t ∨ Ended width bytes t

def work (t : Transfer M Byte Callback) : ℕ := 2*t.remaining + t.inFlight.length + if t.second.isSome then 2 else 0

theorem posts_completed {post : Post Byte Callback} {rest : List (Post Byte Callback)}
    (hfli : t.inFlight = post :: rest) (hc : t'.completed = t.completed ++ [post])
    (hf : t'.inFlight=rest) : posts t' = posts t := by
  rw [posts,posts,hc,hf,hfli,append_assoc]
  rfl

theorem Filling.resume (hp : Packs pack At slice) (hwid : 0<width) (h : Filling width bytes t)
    (hpst : Posted At slice width bytes t)
    (hs : t.step pack (run pack width) .resume = some t') :
    Phases width bytes t' ∧ Posted At slice width bytes t' ∧ work t' < work t := by
  have hbal := h.balance
  have hpen := h.pending
  rcases h.second with hsec | hsec
  · simp [Transfer.step,hsec] at hs
  · simp only [Transfer.step,hsec,use_of_ends h.ends] at hs
    obtain rfl := some.inj hs
    simp only [toCome,hsec,isSome_some,if_true] at hbal
    simp only [GetOverSend.pending,hsec,isSome_some,if_true] at hpen
    have hlf := h.left
    have hpst' : Posted At slice width bytes { t with second := none } := hpst.congr rfl rfl
    refine ⟨.inl ⟨.inl rfl,h.ends,h.left,?_,?_⟩,?_,?_⟩
    · rw [posts_packAndPost,length_append,length_singleton,succ_mul]
      show (posts t).length*width+width+0+t.remaining=bytes
      omega
    · show (t.inFlight ++ [_]).countP _+0 = if t.remaining≤width then 1 else 2
      rw [countP_append,countP_singleton]
      simpa using hpen
    · have hlt : (posts t).length*width<bytes := by omega
      exact hpst'.packAndPost hp hlt 1 _
        (show width=min width (bytes-(posts t).length*width) by omega)
    · show 2*t.remaining+(t.inFlight ++ [_]).length+0 < _
      simp only [work,hsec,isSome_some,if_true,length_append,length_singleton]
      omega

section Completions

variable {post : Post Byte Callback} {rest : List (Post Byte Callback)} {s : Transfer M Byte Callback}

theorem Filling.quiet (h : Filling width bytes t) (hpst : Posted At slice width bytes t)
    (hfli : t.inFlight = post :: rest) (hcll : post.callback=none)
    (ht : t' = { t with completed := t.completed ++ [post], inFlight := rest }) :
    Phases width bytes t' ∧ Posted At slice width bytes t' ∧ work t' < work t := by
  have hpen := h.pending
  have hsm : posts t' = posts t := posts_completed hfli (by rw [ht]) (by rw [ht])
  subst ht
  refine ⟨.inl ⟨h.second,h.ends,h.left,?_,?_⟩,hpst.congr rfl hsm,?_⟩
  · rw [hsm]
    exact h.balance
  · rw [GetOverSend.pending,hfli] at hpen
    simpa [GetOverSend.pending,hcll] using hpen
  · simp only [work,hfli,length_cons]
    omega

theorem Filling.pending_rest (h : Filling width bytes t) (hfli : t.inFlight = post :: rest)
    (hcll : post.callback.isSome) :
    rest.countP (·.callback.isSome)+1+(if t.second.isSome then 1 else 0) =
      if t.remaining≤width then 1 else 2 := by
  have hpen := h.pending
  rwa [GetOverSend.pending,hfli,countP_cons_of_pos (by exact hcll)] at hpen

theorem Filling.last (hp : Packs pack At slice) (h : Filling width bytes t)
    (hpst : Posted At slice width bytes t) (hfli : t.inFlight = post :: rest)
    (hcll : post.callback.isSome) (hla : t.remaining≤width)
    (hs : s = { t with
      remaining := t.remaining-t.remaining, starts := t.starts+1
      completed := t.completed ++ [post], inFlight := rest })
    (ht : t' = s.packAndPost pack (t.starts &&& 1) t.remaining (some .completeData)) :
    Phases width bytes t' ∧ Posted At slice width bytes t' ∧ work t' < work t := by
  have hpen := h.pending_rest hfli hcll
  rw [if_pos hla] at hpen
  have hbal := h.balance
  have hlf := h.left
  have hnn : t.second=none := by
    rcases h.second with hsec | hsec
    · exact hsec
    · rw [hsec] at hpen
      simp at hpen
  have hqui : ∀ q ∈ rest, q.callback=none := by
    have hzr : rest.countP (·.callback.isSome)=0 := by omega
    intro q hq
    simpa using countP_eq_zero.mp hzr q hq
  simp only [toCome,hnn,isSome_none,Bool.false_eq_true,if_false] at hbal
  have hsm : posts s = posts t := posts_completed hfli (by rw [hs]) (by rw [hs])
  have hpst' : Posted At slice width bytes s := hpst.congr (by rw [hs]) hsm
  subst hs ht
  refine ⟨.inr (.inl ⟨hnn,h.ends,Nat.sub_self _,?_,rest,_,rfl,hqui,rfl⟩),?_,?_⟩
  · rw [posts_packAndPost,length_append,length_singleton,succ_mul,hsm]
    omega
  · apply hpst'.packAndPost hp
    · rw [hsm]
      omega
    · rw [hsm]
      omega
  · show 2*(t.remaining-t.remaining)+(rest ++ [_]).length+(if t.second.isSome then 2 else 0) < _
    simp only [work,hfli,length_cons,length_append,length_nil]
    omega

theorem Filling.next (hp : Packs pack At slice) (hwid : 0<width) (h : Filling width bytes t)
    (hpst : Posted At slice width bytes t) (hfli : t.inFlight = post :: rest)
    (hcll : post.callback.isSome) (hla : ¬ t.remaining≤width) {callback : Option Callback}
    (hso : callback.isSome = decide (¬ t.remaining≤width*2))
    (hs : s = { t with
      remaining := t.remaining-width, starts := t.starts+1
      completed := t.completed ++ [post], inFlight := rest })
    (ht : t' = s.packAndPost pack (t.starts &&& 1) width callback) :
    Phases width bytes t' ∧ Posted At slice width bytes t' ∧ work t' < work t := by
  have hpen := h.pending_rest hfli hcll
  rw [if_neg hla] at hpen
  have hbal := h.balance
  have hsm : posts s = posts t := posts_completed hfli (by rw [hs]) (by rw [hs])
  have hpst' : Posted At slice width bytes s := hpst.congr (by rw [hs]) hsm
  subst hs ht
  refine ⟨.inl ⟨h.second,h.ends,?_,?_,?_⟩,?_,?_⟩
  · show 0<t.remaining-width
    omega
  · rw [posts_packAndPost,length_append,length_singleton,succ_mul,hsm]
    show (posts t).length*width+width+toCome width t+(t.remaining-width)=bytes
    omega
  · show (rest ++ [_]).countP _+(if t.second.isSome then 1 else 0) =
      if t.remaining-width≤width then 1 else 2
    rw [countP_append,countP_singleton,hso]
    by_cases htwo : t.remaining≤width*2
    · rw [if_pos (show t.remaining-width≤width by omega)]
      simp only [htwo,not_true,decide_false,Bool.false_eq_true,if_false]
      omega
    · rw [if_neg (show ¬ t.remaining-width≤width by omega)]
      simp only [htwo,not_false_eq_true,decide_true,if_true]
      omega
  · apply hpst'.packAndPost hp
    · rw [hsm]
      omega
    · rw [hsm]
      omega
  · show 2*(t.remaining-width)+(rest ++ [_]).length+(if t.second.isSome then 2 else 0) < _
    simp only [work,hfli,length_cons,length_append,length_nil]
    omega

end Completions

theorem Filling.step (hp : Packs pack At slice) (hwid : 0<width) (h : Filling width bytes t)
    (hpst : Posted At slice width bytes t) (hs : t.step pack (run pack width) e = some t') :
    Phases width bytes t' ∧ Posted At slice width bytes t' ∧ work t' < work t := by
  cases e with
  | resume => exact h.resume hp hwid hpst hs
  | complete =>
    cases hfli : t.inFlight with
    | nil => simp [Transfer.step,hfli] at hs
    | cons post rest =>
      cases hcll : post.callback with
      | none =>
        simp only [Transfer.step,hfli,hcll] at hs
        exact h.quiet hpst hfli hcll (some.inj hs).symm
      | some f =>
        have hcal : post.callback.isSome := by simp [hcll]
        have hnot : t.remaining≠0 := by have := h.left; omega
        simp only [Transfer.step,hfli,hcll,run,completeData,if_neg hnot,use,if_pos h.ends] at hs
        by_cases hla : t.remaining≤width
        · rw [if_pos hla] at hs
          exact h.last hp hpst hfli hcal hla rfl (some.inj hs).symm
        · rw [if_neg hla] at hs
          by_cases htwo : t.remaining≤width*2
          · rw [if_pos htwo] at hs
            have hso : (none : Option Callback).isSome=decide (¬ t.remaining≤width*2) := by simp [htwo]
            exact h.next hp hwid hpst hfli hcal hla hso rfl (some.inj hs).symm
          · rw [if_neg htwo] at hs
            have hso : (some Callback.completeData).isSome=decide (¬ t.remaining≤width*2) := by simpa using htwo
            exact h.next hp hwid hpst hfli hcal hla hso rfl (some.inj hs).symm

theorem Filling.not_idle (h : Filling width bytes t) (hfli : t.inFlight = [])
    (hsec : t.second=none) : False := by
  have hpen := h.pending
  simp only [GetOverSend.pending,hfli,hsec,countP_nil,isSome_none,Bool.false_eq_true,if_false] at hpen
  split at hpen <;> omega

theorem Closing.step (h : Closing width bytes t) (hpst : Posted At slice width bytes t)
    (hs : t.step pack (run pack width) e = some t') :
    Phases width bytes t' ∧ Posted At slice width bytes t' ∧ work t' < work t := by
  obtain ⟨before,last,hfli,hqui,hla⟩ := h.inFlight
  cases e with
  | resume => simp [Transfer.step,h.second] at hs
  | complete =>
    cases before with
    | nil =>
      simp only [Transfer.step,hfli,nil_append,hla,run,completeData,if_pos h.left,
        finish,use,if_pos h.ends] at hs
      obtain rfl := some.inj hs
      refine ⟨.inr (.inr ⟨h.second,?_,?_,rfl⟩),?_,?_⟩
      · show t.ends+1=1
        rw [h.ends]
      · have hall := h.all
        simpa [posts,hfli] using hall
      · refine hpst.congr rfl ?_
        simp [posts,hfli]
      · simp [work,hfli]
    | cons post before =>
      have hps : post.callback=none := hqui post mem_cons_self
      simp only [Transfer.step,hfli,cons_append,hps] at hs
      obtain rfl := some.inj hs
      have hsm : posts { t with completed := t.completed ++ [post], inFlight := before ++ [last] } = posts t := by
        simp [posts,hfli]
      refine ⟨.inr (.inl ⟨h.second,h.ends,h.left,?_,before,last,rfl,?_,hla⟩),?_,?_⟩
      · rw [hsm]
        exact h.all
      · intro q hq
        exact hqui q (mem_cons_of_mem _ hq)
      · exact hpst.congr rfl hsm
      · simp [work,hfli]

theorem Phases.step (hp : Packs pack At slice) (hwid : 0<width) (h : Phases width bytes t)
    (hpst : Posted At slice width bytes t) (hs : t.step pack (run pack width) e = some t') :
    Phases width bytes t' ∧ Posted At slice width bytes t' ∧ work t' < work t := by
  rcases h with hfill | hclo | heed
  · exact hfill.step hp hwid hpst hs
  · exact hclo.step hpst hs
  · cases e with
    | complete => simp [Transfer.step,heed.inFlight] at hs
    | resume => simp [Transfer.step,heed.second] at hs

theorem Phases.exact (h : Phases width bytes t)
    (hpst : Posted At slice width bytes t) : t.Exact slice 0 bytes := by
  have hsn := hpst.sent.sent
  rcases h with hfill | hclo | heed
  · refine ⟨⟨_,min_le_left _ _,hsn⟩,by rw [hfill.ends]; omega,?_,?_⟩
    · intro h
      rw [hfill.ends] at h
      cases h
    · intro hfli hsec
      exact (hfill.not_idle hfli hsec).elim
  · obtain ⟨before,last,hfli,-⟩ := hclo.inFlight
    refine ⟨⟨_,min_le_left _ _,hsn⟩,by rw [hclo.ends]; omega,?_,?_⟩
    · intro h
      rw [hclo.ends] at h
      cases h
    · intro h
      rw [hfli] at h
      simp at h
  · rw [min_eq_left heed.all] at hsn
    refine ⟨⟨bytes,le_refl _,hsn⟩,le_of_eq heed.ends,?_,fun _ _ => heed.ends⟩
    intro _
    exact ⟨heed.inFlight,heed.second,hsn⟩

theorem Phases.enabled (pack : M → ℕ → List Byte × M) (h : Phases width bytes t) (hen : t.ends≠1) :
    ∃ e t', t.step pack (run pack width) e = some t' := by
  rcases h with hfill | hclo | heed
  · rcases hfill.second with hsec | hsec
    · exact ⟨.complete,complete_of_inFlight pack (run pack width) fun hnil => hfill.not_idle hnil hsec⟩
    · exact ⟨.resume,_,by simp only [Transfer.step,hsec]; rfl⟩
  · obtain ⟨before,last,hfli,-⟩ := hclo.inFlight
    exact ⟨.complete,complete_of_inFlight pack (run pack width) (by simp [hfli])⟩
  · exact absurd heed.ends hen

/-- While two packets are to be packed the first post is in the first buffer; while one is, the post whose completion
packs it is in the second. -/
def Turns (width : ℕ) (t : Transfer M Byte Callback) : Prop :=
  (t.starts = 2 ∧ width < t.remaining ∧ t.remaining ≤ width*2 ∧ ∃ first rest, t.inFlight = first :: rest ∧
    first.buffer = some 0 ∧ first.callback.isSome ∧ (∀ q ∈ rest, q.buffer = some 1 ∧ q.callback.isSome) ∧
      (t.second.isSome → rest = [])) ∨
  t.starts = 3 ∧ t.remaining ≤ width ∧ ∀ q ∈ t.inFlight, q.callback.isSome ↔ q.buffer = some 1

/-- No buffer has been filled in flight, and the posts in flight have different ones. -/
structure Buffered (width : ℕ) (t : Transfer M Byte Callback) : Prop where
  overwritten : t.overwritten = false
  nodup : (t.inFlight.map Post.buffer).Nodup
  turns : t.remaining = 0 ∨ Turns width t

theorem content_of_apart {post : Post Byte Callback} {later : List (Post Byte Callback)}
    (h : ∀ q ∈ later, q.buffer≠post.buffer) : content post later = post.payload := by
  unfold content
  induction later with
  | nil => rfl
  | cons q later ih =>
    rw [foldl_cons,if_neg (h q mem_cons_self)]
    exact ih fun q hq => h q (mem_cons_of_mem _ hq)

theorem contents_of_nodup {l : List (Post Byte Callback)} (h : (l.map Post.buffer).Nodup) :
    contents l = l.map Post.payload := by
  induction l with
  | nil => rfl
  | cons post later ih =>
    rw [map_cons,nodup_cons] at h
    rw [contents,map_cons,ih h.2,content_of_apart fun q hq heq => h.1 (heq ▸ mem_map_of_mem hq)]

theorem packAndPost_apart (pack : M → ℕ → List Byte × M) {buffer : ℕ} (n : ℕ) (callback : Option Callback)
    (hov : t.overwritten=false) (hnod : (t.inFlight.map Post.buffer).Nodup)
    (hnot : ∀ q ∈ t.inFlight, q.buffer ≠ some buffer) :
    (t.packAndPost pack buffer n callback).overwritten=false ∧
      ((t.packAndPost pack buffer n callback).inFlight.map Post.buffer).Nodup := by
  constructor
  · simp only [packAndPost,hov,not_any_buffer hnot,Bool.or_false]
  · simp only [packAndPost,map_append,map_cons,map_nil]
    rw [nodup_append_comm]
    refine nodup_cons.2 ⟨fun hin => ?_,hnod⟩
    obtain ⟨q,hq,heq⟩ := mem_map.1 hin
    exact hnot q hq heq

theorem sendData_phases (hp : Packs pack At slice) {machine : M} (hmac : At machine 0)
    (hlong : width*3<bytes) (startCount : ℕ) :
    Phases width bytes (sendData pack width bytes startCount machine) ∧
      Posted At slice width bytes (sendData pack width bytes startCount machine) := by
  have hsta : Posted At slice width bytes
      (start machine (bytes-width*2) 2 [] : Transfer M Byte Callback) := by
    refine ⟨?_,fun i post hi => by simp [posts,start] at hi⟩
    have hzr : min bytes ((posts (start machine (bytes-width*2) 2 [] :
        Transfer M Byte Callback)).length*width)=0 := by
      simp [posts,start]
    rw [hzr]
    exact Transfer.Sent.start hp hmac (by simp) _ _
  rw [sendData,if_neg (by omega),if_neg (by omega)]
  constructor
  · refine .inl ⟨.inr rfl,rfl,?_,?_,?_⟩
    · show 0<bytes-width*2
      omega
    · show 1*width+width+(bytes-width*2)=bytes
      omega
    · show 1+1 = if bytes-width*2≤width then 1 else 2
      rw [if_neg (by omega)]
  · have hpst := hsta.packAndPost hp (n := width) (by simp [posts,start]; omega) 0
      (some .completeData) (by simp [posts,start]; omega)
    exact hpst.congr rfl rfl

theorem Buffered.resume (h : Filling width bytes t) (hb : Buffered width t)
    (hs : t.step pack (run pack width) .resume = some t') : Buffered width t' := by
  have hpen := h.pending
  rcases h.second with hsec | hsec
  · simp [Transfer.step,hsec] at hs
  simp only [Transfer.step,hsec,use_of_ends h.ends] at hs
  obtain rfl := some.inj hs
  rcases hb.turns with hzr | ⟨hst,hmore,htwo,first,rest,hfli,hbuf,hcll,-,hrest⟩ | ⟨hst,hle,hone⟩
  · exact absurd hzr h.left.ne'
  · obtain rfl := hrest (by rw [hsec]; rfl)
    have hnot : ∀ q ∈ t.inFlight, q.buffer≠some 1 := by
      rw [hfli]
      simp [hbuf]
    obtain ⟨hov,hnod⟩ := packAndPost_apart (t := { t with second := none }) pack width
      (some .completeData) hb.overwritten hb.nodup hnot
    refine ⟨hov,hnod,.inr (.inl ⟨hst,hmore,htwo,first,_,congrArg (· ++ _) hfli,hbuf,hcll,?_,fun h => by cases h⟩)⟩
    intro q hq
    obtain rfl := mem_singleton.1 hq
    exact ⟨rfl,rfl⟩
  · -- no callback is in flight, so the second buffer is free
    simp only [GetOverSend.pending,hsec,isSome_some,if_true,if_pos hle] at hpen
    have hqui : t.inFlight.countP (·.callback.isSome)=0 := by omega
    have hnot : ∀ q ∈ t.inFlight, q.buffer≠some 1 := fun q hq heq =>
      countP_eq_zero.1 hqui q hq ((hone q hq).2 heq)
    obtain ⟨hov,hnod⟩ := packAndPost_apart (t := { t with second := none }) pack width
      (some .completeData) hb.overwritten hb.nodup hnot
    refine ⟨hov,hnod,.inr (.inr ⟨hst,hle,fun q hq => ?_⟩)⟩
    rcases mem_append.1 hq with hq | hq
    · exact hone q hq
    · obtain rfl := mem_singleton.1 hq
      exact iff_of_true rfl rfl

theorem Buffered.refill (h : Filling width bytes t) (hb : Buffered width t) {post : Post Byte Callback}
    {rest : List (Post Byte Callback)} (hfli : t.inFlight = post :: rest) (hcll : post.callback = some .completeData)
    (hs : t.step pack (run pack width) .complete = some t') : Buffered width t' := by
  have hcal : post.callback.isSome := by rw [hcll]; rfl
  have hpen := h.pending_rest hfli hcal
  have hnod := hb.nodup
  rw [hfli,map_cons,nodup_cons] at hnod
  have hne : t.remaining≠0 := h.left.ne'
  simp only [Transfer.step,hfli,hcll,run,completeData,if_neg hne,use,if_pos h.ends] at hs
  rcases hb.turns with hzr | ⟨hst,hmore,htwo,first,rest',hfli',-,-,hrest,-⟩ | ⟨hst,hle,hone⟩
  · exact absurd hzr hne
  · -- the first buffer is filled while only the second one can be in flight
    obtain ⟨rfl,rfl⟩ := cons.inj (hfli.symm.trans hfli')
    have hwhi : t.starts &&& 1=0 := by rw [hst]; rfl
    rw [if_neg (Nat.not_le.2 hmore),if_pos htwo,hwhi] at hs
    obtain rfl := some.inj hs
    have hnot : ∀ q ∈ rest, q.buffer≠some 0 := fun q hq => by simp [(hrest q hq).1]
    obtain ⟨hov,hnod'⟩ := packAndPost_apart (t := { t with
      starts := t.starts+1, remaining := t.remaining-width
      completed := t.completed ++ [post], inFlight := rest }) pack width none
      hb.overwritten hnod.2 hnot
    refine ⟨hov,hnod',.inr (.inr ⟨congrArg (· + 1) hst,?_,fun q hq => ?_⟩)⟩
    · show t.remaining-width≤width
      omega
    · rcases mem_append.1 hq with hq | hq
      · exact iff_of_true (hrest q hq).2 (hrest q hq).1
      · obtain rfl := mem_singleton.1 hq
        exact iff_of_false (by simp) (by simp)
  · -- the second buffer is filled when its post was the last one with a callback
    have hwhi : t.starts &&& 1=1 := by rw [hst]; rfl
    rw [if_pos hle,hwhi] at hs
    obtain rfl := some.inj hs
    rw [if_pos hle] at hpen
    have hqui : rest.countP (·.callback.isSome)=0 := by omega
    have hnot : ∀ q ∈ rest, q.buffer≠some 1 := fun q hq heq =>
      countP_eq_zero.1 hqui q hq ((hone q (hfli ▸ mem_cons_of_mem _ hq)).2 heq)
    obtain ⟨hov,hnod'⟩ := packAndPost_apart (t := { t with
      starts := t.starts+1, remaining := t.remaining-t.remaining
      completed := t.completed ++ [post], inFlight := rest }) pack t.remaining
      (some .completeData) hb.overwritten hnod.2 hnot
    exact ⟨hov,hnod',.inl (Nat.sub_self _)⟩

theorem Buffered.step (h : Phases width bytes t) (hb : Buffered width t)
    (hs : t.step pack (run pack width) e = some t') : Buffered width t' := by
  have hfill : t.remaining≠0 ∨ e = .resume → Filling width bytes t := by
    intro hne
    rcases h with hfill | hclo | heed
    · exact hfill
    · rcases hne with hne | rfl
      · exact absurd hclo.left hne
      · simp [Transfer.step,hclo.second] at hs
    · cases e <;> simp [Transfer.step,heed.inFlight,heed.second] at hs
  cases e with
  | resume => exact hb.resume (hfill (.inr rfl)) hs
  | complete =>
    cases hfli : t.inFlight with
    | nil => simp [Transfer.step,hfli] at hs
    | cons post rest =>
      have hnod := hb.nodup
      rw [hfli,map_cons,nodup_cons] at hnod
      cases hcll : post.callback with
      | none =>
        simp only [Transfer.step,hfli,hcll] at hs
        obtain rfl := some.inj hs
        refine ⟨hb.overwritten,hnod.2,?_⟩
        rcases hb.turns with hzr | ⟨-,-,-,first,rest',hfli',-,hcal,-⟩ | ⟨hst,hle,hone⟩
        · exact .inl hzr
        · obtain ⟨rfl,-⟩ := cons.inj (hfli.symm.trans hfli')
          rw [hcll] at hcal
          cases hcal
        · exact .inr (.inr ⟨hst,hle,fun q hq => hone q (hfli ▸ mem_cons_of_mem _ hq)⟩)
      | some f =>
        by_cases hzr : t.remaining=0
        · simp only [Transfer.step,hfli,hcll,run,completeData,if_pos hzr,finish,use] at hs
          obtain rfl := some.inj hs
          split <;> exact ⟨hb.overwritten,hnod.2,.inl hzr⟩
        · exact hb.refill (hfill (.inl hzr)) hfli hcll hs

theorem sendData_buffered (pack : M → ℕ → List Byte × M) (machine : M) (hlong : width*3<bytes)
    (hfour : bytes≤width*4) (startCount : ℕ) : Buffered width (sendData pack width bytes startCount machine) := by
  rw [sendData,if_neg (by omega),if_neg (by omega)]
  refine ⟨rfl,nodup_singleton _,.inr (.inl ⟨rfl,?_,?_,_,[],rfl,rfl,rfl,nofun,fun _ => rfl⟩)⟩
  · show width<bytes-width*2
    omega
  · show bytes-width*2≤width*2
    omega

theorem sendData_overwrites (pack : M → ℕ → List Byte × M) (machine : M) (hlong : width*4<bytes) (startCount : ℕ) :
    ∃ t, Run (fun (t : Transfer M Byte Callback) e => t.step pack (run pack width) e) (fun _ _ => True)
      (sendData pack width bytes startCount machine) t ∧ t.overwritten=true := by
  have hone : ¬ bytes≤width := by omega
  have htwo : ¬ bytes≤width*2 := by omega
  have hne : ¬ bytes-width*2=0 := by omega
  have hfir : ¬ bytes-width*2≤width := by omega
  have hfir' : ¬ bytes-width*2≤width*2 := by omega
  have hne' : ¬ bytes-width*2-width=0 := by omega
  have hsec : ¬ bytes-width*2-width≤width := by omega
  -- the first packet completes inside of its post, the second one later
  have hex : ∃ t, execEvents (fun (t : Transfer M Byte Callback) e => t.step pack (run pack width) e)
      [.complete,.resume,.complete] (sendData pack width bytes startCount machine) = some t ∧ t.overwritten=true := by
    by_cases hfour : bytes-width*2-width≤width*2
    · simp [execEvents,sendData,Transfer.step,packAndPost,start,run,completeData,use,hone,htwo,hne,hfir,
        hfir',hne',hsec,hfour]
    · simp [execEvents,sendData,Transfer.step,packAndPost,start,run,completeData,use,hone,htwo,hne,hfir,
        hfir',hne',hsec,hfour]
  obtain ⟨t,ht,hov⟩ := hex
  exact ⟨t,Run.refl.execEvents _ (fun _ _ _ => trivial) ht,hov⟩

end Target

end PAMI.Protocol.GetOverSend
