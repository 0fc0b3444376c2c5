import PAMI.Datatype.PackUnpack

namespace PAMI.Protocol.PutOverSend

open PAMI.Math PAMI.Datatype Transfer List Option

/-- The event functions of the posts of a put. -/
inductive Callback where
  | completeData
  | completeOrigin
  deriving DecidableEq, Repr

variable {M : Type*} (pack : M → ℕ → List Byte × M) (width : ℕ)

/-- `send_envelope`: the header and the serialized type of the target. -/
def sendEnvelope (header type : List Byte) : List (Post Byte Callback) := [⟨none, header, none⟩, ⟨none, type, none⟩]

/-- `send_data` of a typed put up to its first post; `none` where it aborts. `starts` is what
`start_count` happens to hold. -/
def sendData (atomSize bytes starts : ℕ) (envelope : List (Post Byte Callback)) (machine : M) :
    Option (Transfer M Byte Callback) :=
  let s := start machine bytes starts envelope
  if width % atomSize ≠ 0 then none
  else if bytes ≤ width then some (s.packAndPost pack 0 bytes (some .completeOrigin))
  else if bytes ≤ width*2 then
    some { s.packAndPost pack 0 width none with second := some (bytes - width, some .completeOrigin) }
  else
    let s := { s with starts := 2, remaining := s.remaining - width*2 }
    some { s.packAndPost pack 0 width (some .completeData) with
      second := some (width, some .completeData) }

def completeData (s : Transfer M Byte Callback) : Transfer M Byte Callback :=
  let s := s.use
  let which := s.starts &&& 1
  let s := { s with starts := s.starts + 1 }
  if s.remaining ≤ width then s.packAndPost pack which s.remaining (some .completeOrigin)
  else if s.remaining ≤ width*2 then
    { s with remaining := s.remaining - width }.packAndPost pack which width none
  else
    { s with remaining := s.remaining - width }.packAndPost pack which width (some .completeData)

/-- `complete_origin`, which returns the state to the allocator. -/
def completeOrigin (s : Transfer M Byte Callback) : Transfer M Byte Callback := s.finish

def run : Callback → Transfer M Byte Callback → Transfer M Byte Callback
  | .completeData => completeData pack width
  | .completeOrigin => completeOrigin

def step (s : Transfer M Byte Callback) (e : TransferEvent) : Option (Transfer M Byte Callback) :=
  s.step pack (run pack width) e

/-- What a put is for: it transmits its bytes and ends once, and a buffer is not filled while the
packet it holds is in flight. -/
structure Transmits (slice : ℕ → ℕ → List Byte) (bytes : ℕ) (s : Transfer M Byte Callback) :
    Prop extends s.Exact slice 0 bytes where
  overwritten : s.overwritten = false

section Pipeline

variable {pack width} {At : M → ℕ → Prop} {slice : ℕ → ℕ → List Byte}
  {s s' : Transfer M Byte Callback} {o bytes k : ℕ}

theorem completeOrigin_endsWith : Transfer.EndsWith (run pack width) Callback.completeOrigin := by
  constructor <;> intro s <;> by_cases h : s.ends=0 <;>
    simp [run,completeOrigin,finish,use,h]

def Plain (post : Post Byte Callback) : Prop := post.callback = none ∧ post.buffer ≠ some 1

/-- Two full packets have been or are to be posted with a callback, and between one and two packets
are left. -/
structure Filling (width : ℕ) (s : Transfer M Byte Callback) : Prop where
  starts : s.starts = 2
  remaining : width < s.remaining ∧ s.remaining ≤ width*2
  overwritten : s.overwritten = false
  ends : s.ends = 0
  inFlight : ∃ before first, (∀ q ∈ before, q.callback = none ∧ q.buffer = none) ∧
    first.callback = some .completeData ∧ first.buffer = some 0 ∧
    (s.second = some (width, some .completeData) ∧ s.inFlight = before ++ [first] ∨
      s.second = none ∧ ∃ other, other.callback = some .completeData ∧ other.buffer = some 1 ∧
        s.inFlight = before ++ [first, other])

/-- The last full packet has been posted without a callback; the second of the two others has not
completed. -/
structure Draining (width : ℕ) (s : Transfer M Byte Callback) : Prop where
  starts : s.starts = 3
  remaining : s.remaining ≤ width
  overwritten : s.overwritten = false
  ends : s.ends = 0
  inFlight : s.second = some (width, some .completeData) ∧ (∀ q ∈ s.inFlight, Plain q) ∨
    s.second = none ∧ ∃ before other after, other.callback = some .completeData ∧
      s.inFlight = before ++ other :: after ∧ ∀ q ∈ before ++ after, Plain q

/-- What the second post of the caller adds, if it is to come. -/
def toCome (s : Transfer M Byte Callback) : ℕ := (s.second.map Prod.fst).getD 0

/-- All phases of a put of more than three and at most four packets. -/
def Phases (At : M → ℕ → Prop) (slice : ℕ → ℕ → List Byte) (width bytes : ℕ)
    (s : Transfer M Byte Callback) : Prop :=
  (∃ k, k + toCome s + s.remaining = bytes ∧ (Filling width s ∨ Draining width s) ∧ s.Sent At slice 0 k) ∨
  s.LastPart At slice 0 bytes Callback.completeOrigin

theorem not_any_of_plain {l : List (Post Byte Callback)} (h : ∀ q ∈ l, Plain q) :
    l.any (·.buffer == some 1) = false :=
  not_any_buffer fun q hq => (h q hq).2

section

variable (hp : Packs pack At slice) {e : TransferEvent} {atomSize : ℕ} {machine : M}
include hp

theorem Filling.step (h : Filling width s) (hsn : s.Sent At slice 0 k)
    (hk : k+toCome s+s.remaining = bytes) (hs : step pack width s e = some s') :
    Phases At slice width bytes s' := by
  left
  obtain ⟨before,first,hbef,hfir,hbuf,hcas⟩ := h.inFlight
  cases e with
  | resume =>
    obtain ⟨hsec,hfli⟩ | ⟨hsec,-⟩ := hcas
    · simp only [PutOverSend.step,Transfer.step,hsec,use_of_ends h.ends] at hs
      obtain rfl := some.inj hs
      have hsn' : Transfer.Sent At slice 0 k { s with second := none } := hsn.congr rfl rfl
      refine ⟨k+width,?_,.inl ⟨h.starts,h.remaining,?_,h.ends,before,first,hbef,hfir,
        hbuf,.inr ⟨rfl,⟨some 1,(pack s.machine width).1,some .completeData⟩,rfl,rfl,?_⟩⟩,
        hsn'.packAndPost hp 1 width _⟩
      · simp only [toCome,hsec,map_some,getD_some] at hk
        show k+width+0+s.remaining=bytes
        omega
      · show (s.overwritten || s.inFlight.any (·.buffer == some 1))=false
        rw [h.overwritten,hfli,Bool.false_or,List.any_eq_false]
        intro q hq
        rcases mem_append.mp hq with hq | hq
        · simp [(hbef q hq).2]
        · simp [mem_singleton.mp hq,hbuf]
      · show s.inFlight ++ _ = _
        rw [hfli,append_assoc]
        rfl
    · simp [PutOverSend.step,Transfer.step,hsec] at hs
  | complete =>
    cases before with
    | cons post before =>
      -- a packet of the envelope
      have hps : post.callback=none := (hbef post mem_cons_self).1
      have hbef' : ∀ q ∈ before, q.callback=none ∧ q.buffer=none := fun q hq => hbef q (mem_cons_of_mem _ hq)
      obtain ⟨tail,hta⟩ : ∃ tail, s.inFlight=post :: tail := by
        rcases hcas with ⟨-,hfli⟩ | ⟨-,other,-,-,hfli⟩
        · exact ⟨_,hfli⟩
        · exact ⟨_,hfli⟩
      simp only [PutOverSend.step,Transfer.step,hta,hps] at hs
      obtain rfl := some.inj hs
      refine ⟨k,hk,.inl ⟨h.starts,h.remaining,h.overwritten,h.ends,before,first,hbef',hfir,hbuf,?_⟩,?_⟩
      · rcases hcas with ⟨hsec,hfli⟩ | ⟨hsec,other,hoth,hbuf',hfli⟩
        · rw [hta] at hfli
          exact .inl ⟨hsec,(List.cons.inj hfli).2⟩
        · rw [hta] at hfli
          exact .inr ⟨hsec,other,hoth,hbuf',(List.cons.inj hfli).2⟩
      · exact hsn.completes hta rfl rfl rfl
    | nil =>
      -- the first packet, whose buffer takes the last full one
      obtain ⟨tail,hta,hcas'⟩ : ∃ tail, s.inFlight=first :: tail ∧
          (s.second=some (width, some .completeData) ∧ tail = [] ∨
            s.second=none ∧ ∃ other, other.callback=some .completeData ∧
              other.buffer=some 1 ∧ tail = [other]) := by
        rcases hcas with ⟨hsec,hfli⟩ | ⟨hsec,other,hoth,hbuf',hfli⟩
        · exact ⟨[],hfli,.inl ⟨hsec,rfl⟩⟩
        · exact ⟨[other],hfli,.inr ⟨hsec,other,hoth,hbuf',rfl⟩⟩
      have hwhi : s.starts &&& 1=0 := by rw [h.starts]; rfl
      have hnot : ¬ s.remaining≤width := by have := h.remaining; omega
      simp only [PutOverSend.step,Transfer.step,hta,hfir,run,completeData,use,
        if_pos h.ends,hwhi,if_neg hnot,if_pos h.remaining.2] at hs
      obtain rfl := some.inj hs
      have hsn' : Transfer.Sent At slice 0 k { s with
          starts := s.starts+1, remaining := s.remaining-width
          completed := s.completed ++ [first], inFlight := tail } :=
        hsn.completes hta rfl rfl rfl
      refine ⟨k+width,?_,.inr ⟨?_,?_,?_,h.ends,?_⟩,hsn'.packAndPost hp 0 width none⟩
      · have := h.remaining
        show k+width+toCome s+(s.remaining-width)=bytes
        omega
      · show s.starts+1=3
        rw [h.starts]
      · have := h.remaining
        show s.remaining-width≤width
        omega
      · show (s.overwritten || tail.any (·.buffer == some 0))=false
        rw [h.overwritten,Bool.false_or]
        rcases hcas' with ⟨-,rfl⟩ | ⟨-,other,-,hbuf',rfl⟩
        · rfl
        · simp [hbuf']
      · rcases hcas' with ⟨hsec,rfl⟩ | ⟨hsec,other,hoth,hbuf',rfl⟩
        · refine .inl ⟨hsec,fun q hq => ?_⟩
          obtain rfl := mem_singleton.mp hq
          exact ⟨rfl,by simp⟩
        · refine .inr ⟨hsec,[],other,_,hoth,rfl,fun q hq => ?_⟩
          obtain rfl := mem_singleton.mp hq
          exact ⟨rfl,by simp⟩

theorem Draining.step (h : Draining width s) (hsn : s.Sent At slice 0 k)
    (hk : k+toCome s+s.remaining = bytes) (hs : step pack width s e = some s') :
    Phases At slice width bytes s' := by
  cases e with
  | resume =>
    left
    obtain ⟨hsec,hpla⟩ | ⟨hsec,-⟩ := h.inFlight
    · simp only [PutOverSend.step,Transfer.step,hsec,use_of_ends h.ends] at hs
      obtain rfl := some.inj hs
      have hsn' : Transfer.Sent At slice 0 k { s with second := none } := hsn.congr rfl rfl
      refine ⟨k+width,?_,.inr ⟨h.starts,h.remaining,?_,h.ends,.inr ⟨rfl,s.inFlight,_,[],
        rfl,rfl,?_⟩⟩,hsn'.packAndPost hp 1 width _⟩
      · simp only [toCome,hsec,map_some,getD_some] at hk
        show k+width+0+s.remaining=bytes
        omega
      · show (s.overwritten || s.inFlight.any (·.buffer == some 1))=false
        rw [h.overwritten,not_any_of_plain hpla]
        rfl
      · rw [append_nil]
        exact hpla
    · simp [PutOverSend.step,Transfer.step,hsec] at hs
  | complete =>
    obtain ⟨hsec,hpla⟩ | ⟨hsec,before,other,after,hoth,hfli,hpla⟩ := h.inFlight
    · left
      cases hfli : s.inFlight with
      | nil => simp [PutOverSend.step,Transfer.step,hfli] at hs
      | cons post rest =>
        have hps := hpla post (by rw [hfli]; exact mem_cons_self)
        simp only [PutOverSend.step,Transfer.step,hfli,hps.1] at hs
        obtain rfl := some.inj hs
        refine ⟨k,hk,.inr ⟨h.starts,h.remaining,h.overwritten,h.ends,.inl ⟨hsec,?_⟩⟩,?_⟩
        · intro q hq
          exact hpla q (by rw [hfli]; exact mem_cons_of_mem _ hq)
        · exact hsn.completes hfli rfl rfl rfl
    · cases before with
      | cons post before =>
        left
        have hps : Plain post := hpla post (by simp)
        simp only [PutOverSend.step,Transfer.step,hfli,cons_append,hps.1] at hs
        obtain rfl := some.inj hs
        refine ⟨k,hk,.inr ⟨h.starts,h.remaining,h.overwritten,h.ends,
          .inr ⟨hsec,before,other,after,hoth,rfl,?_⟩⟩,?_⟩
        · intro q hq
          exact hpla q (mem_cons_of_mem _ hq)
        · exact hsn.completes hfli rfl rfl rfl
      | nil =>
        -- the second packet, whose buffer takes what is left
        right
        rw [nil_append] at hpla
        have hwhi : s.starts &&& 1=1 := by rw [h.starts]; rfl
        simp only [PutOverSend.step,Transfer.step,hfli,nil_append,hoth,run,
          completeData,use,if_pos h.ends,hwhi,if_pos h.remaining] at hs
        obtain rfl := some.inj hs
        have hsn' : Transfer.Sent At slice 0 k { s with
            starts := s.starts+1, completed := s.completed ++ [other], inFlight := after } :=
          hsn.completes hfli rfl rfl rfl
        right
        have hbyt : k+s.remaining=bytes := by
          simp only [toCome,hsec,map_none,getD_none] at hk
          omega
        refine ⟨.inl ⟨hsec,⟨after,_,rfl,fun q hq => (hpla q hq).1,rfl⟩,?_,h.ends⟩,?_⟩
        · show (s.overwritten || after.any (·.buffer == some 1))=false
          rw [h.overwritten,not_any_of_plain hpla]
          rfl
        · rw [← hbyt]
          exact hsn'.packAndPost hp 1 s.remaining _

theorem Phases.step (h : Phases At slice width bytes s) (hs : step pack width s e = some s') :
    Phases At slice width bytes s' := by
  obtain ⟨k,hk,hfill | hdra,hsn⟩ | hla := h
  · exact hfill.step hp hsn hk hs
  · exact hdra.step hp hsn hk hs
  · exact .inr (hla.step hp completeOrigin_endsWith hs)

omit hp in
theorem Phases.transmits (h : Phases At slice width bytes s) : Transmits slice bytes s := by
  obtain ⟨k,hk,hpha,hsn⟩ | hla := h
  · have hen : s.ends=0 := hpha.elim (·.ends) (·.ends)
    refine ⟨⟨⟨k,by omega,hsn.sent⟩,by omega,by omega,?_⟩,hpha.elim (·.overwritten) (·.overwritten)⟩
    intro hfli hsec
    exfalso
    rcases hpha with hfill | hdra
    · obtain ⟨before,first,-,-,-,⟨h',-⟩ | ⟨-,other,-,-,h'⟩⟩ := hfill.inFlight
      · rw [hsec] at h'
        cases h'
      · simp [hfli] at h'
    · obtain ⟨h',-⟩ | ⟨-,before,other,after,-,h',-⟩ := hdra.inFlight
      · rw [hsec] at h'
        cases h'
      · simp [hfli] at h'
  · exact ⟨hla.exact,hla.overwritten⟩

omit hp in
theorem sendEnvelope_quiet (header type : List Byte) :
    ∀ q ∈ sendEnvelope header type, q.callback=none ∧ q.buffer=none := by
  intro q hq
  simp only [sendEnvelope,mem_cons,not_mem_nil,or_false] at hq
  rcases hq with rfl | rfl <;> exact ⟨rfl,rfl⟩

theorem sendData_phases (hmac : At machine 0) (starts : ℕ) (header type : List Byte)
    (hatom : width%atomSize=0) (hbyt : bytes≤width*2 ∨ width*3<bytes ∧ bytes≤width*4) :
    ∃ s, sendData pack width atomSize bytes starts (sendEnvelope header type) machine = some s ∧
      Phases At slice width bytes s := by
  have hqui := sendEnvelope_quiet header type
  have hsta (remaining starts : ℕ) := Transfer.Sent.start hp hmac
    (fun q hq => (hqui q hq).2) remaining starts
  have hbuf (b : ℕ) : (sendEnvelope header type).any (·.buffer == some b)=false :=
    not_any_buffer fun q hq => by simp [(hqui q hq).2]
  rw [sendData,if_neg (by omega)]
  by_cases hsho : bytes≤width
  · rw [if_pos hsho]
    refine ⟨_,rfl,.inr (.inr ⟨.inl ⟨rfl,⟨_,_,rfl,fun q hq => (hqui q hq).1,rfl⟩,?_,rfl⟩,?_⟩)⟩
    · exact hbuf 0
    · have hsn := (hsta bytes starts).packAndPost hp 0 bytes (some .completeOrigin)
      rw [zero_add] at hsn
      exact hsn
  · rw [if_neg hsho]
    by_cases htwo : bytes≤width*2
    · rw [if_pos htwo]
      refine ⟨_,rfl,.inr (.inl ⟨bytes-width,width,by omega,⟨rfl,?_,?_,rfl⟩,?_⟩)⟩
      · intro q hq
        simp only [packAndPost,mem_append,mem_singleton] at hq
        rcases hq with hq | rfl
        · simp [hqui q hq]
        · simp
      · exact hbuf 0
      · have hsn := (hsta bytes starts).packAndPost hp 0 width none
        rw [zero_add] at hsn
        exact hsn.congr rfl rfl
    · rw [if_neg htwo]
      refine ⟨_,rfl,.inl ⟨width,?_,.inl ⟨rfl,?_,?_,rfl,_,_,hqui,rfl,rfl,.inl ⟨rfl,rfl⟩⟩,?_⟩⟩
      · show width+width+(bytes-width*2)=bytes
        omega
      · show width<bytes-width*2 ∧ bytes-width*2≤width*2
        omega
      · exact hbuf 0
      · have hsn := (hsta (bytes-width*2) 2).packAndPost hp 0 width (some .completeData)
        rw [zero_add] at hsn
        exact hsn.congr rfl rfl

theorem completeData_last_step (hsn : s.Sent At slice 0 k) {post : Post Byte Callback}
    {rest : List (Post Byte Callback)} (hfli : s.inFlight = post :: rest)
    (hps : post.callback = some .completeData) (hen : s.ends=0) (hlf : s.remaining≤width) :
    ∃ s' last, step pack width s .complete = some s' ∧ s'.inFlight = rest ++ [last] ∧
      s'.remaining=s.remaining ∧ s'.ends=0 ∧ s'.Sent At slice 0 (k+s.remaining) := by
  have hsn' : Transfer.Sent At slice 0 k { s with
      starts := s.starts+1, completed := s.completed ++ [post], inFlight := rest } :=
    hsn.completes hfli rfl rfl rfl
  refine ⟨_,⟨some (s.starts &&& 1),(pack s.machine s.remaining).1,some .completeOrigin⟩,?_,?_,?_,
    ?_,hsn'.packAndPost hp (s.starts &&& 1) s.remaining (some .completeOrigin)⟩
  · simp only [PutOverSend.step,Transfer.step,hfli,hps,run,completeData,use,if_pos hen,if_pos hlf]
  · rfl
  · rfl
  · exact hen

omit hp in
theorem sendData_long (pack : M → ℕ → List Byte × M) (machine : M) (hatom : width%atomSize=0)
    (hbyt : width*2<bytes) (starts : ℕ) (header type : List Byte) :
    ∃ s, sendData pack width atomSize bytes starts (sendEnvelope header type) machine = some s ∧
      s = { (start machine (bytes-width*2) 2 (sendEnvelope header type)).packAndPost pack 0
        width (some Callback.completeData) with second := some (width, some .completeData) } := by
  refine ⟨_,?_,rfl⟩
  rw [sendData,if_neg (by omega),if_neg (by omega),if_neg (by omega)]
  rfl

theorem three_packets_repeat (hmac : At machine 0) (hlong : width*2<bytes) (hthr : bytes≤width*3)
    (header type : List Byte) : ∃ s', Run (step pack width) (fun _ _ => True)
      { (start machine (bytes-width*2) 2 (sendEnvelope header type)).packAndPost pack 0
        width (some Callback.completeData) with second := some (width, some .completeData) } s' ∧
      bytes < s'.sent.length := by
  have hsta := Transfer.Sent.start hp hmac
    (fun q hq => (sendEnvelope_quiet header type q hq).2) (bytes-width*2) 2
  have hfir := hsta.packAndPost hp 0 width (some .completeData)
  have hfir' : Transfer.Sent At slice 0 (0+width)
      { (start machine (bytes-width*2) 2 (sendEnvelope header type)).packAndPost pack 0
        width (some Callback.completeData) with second := none } := hfir.congr rfl rfl
  have hsec := hfir'.packAndPost hp 1 width (some .completeData)
  -- both packets are posted, then the envelope completes
  have hrun : ∃ s, Run (step pack width) (fun _ _ => True)
      { (start machine (bytes-width*2) 2 (sendEnvelope header type)).packAndPost pack 0
        width (some Callback.completeData) with second := some (width, some .completeData) } s ∧
      (∃ p q, s.inFlight = [p,q] ∧ p.callback=some Callback.completeData ∧
        q.callback=some Callback.completeData) ∧
      s.ends=0 ∧ s.remaining=bytes-width*2 ∧ s.Sent At slice 0 (0+width+width) := by
    refine ⟨_,Run.refl.execEvents [.resume,.complete,.complete] (fun _ _ _ => trivial) rfl,
      ⟨_,_,rfl,rfl,rfl⟩,rfl,rfl,?_⟩
    exact hsec.congr rfl rfl
  obtain ⟨s,hrun,⟨p,q,hfli,hp',hq'⟩,hen,hrem,hsn⟩ := hrun
  have hlf : s.remaining≤width := by omega
  obtain ⟨s1,last,hs1,hfli1,hrem1,hen1,hsn1⟩ := completeData_last_step hp hsn hfli hp' hen hlf
  have hlf1 : s1.remaining≤width := by omega
  obtain ⟨s2,last',hs2,-,-,-,hsn2⟩ := completeData_last_step hp hsn1 hfli1 hq' hen1 hlf1
  refine ⟨s2,(hrun.step trivial hs1).step trivial hs2,?_⟩
  rw [hsn2.length hp]
  omega

end

theorem five_packets_overwrite (pack : M → ℕ → List Byte × M) (machine : M)
    (hlong : width*4<bytes) (header type : List Byte) :
    ∃ s', Run (step pack width) (fun _ _ => True)
      { (start machine (bytes-width*2) 2 (sendEnvelope header type)).packAndPost pack 0
        width (some Callback.completeData) with second := some (width, some .completeData) } s' ∧
      s'.overwritten=true := by
  have hfir : ¬ bytes-width*2≤width := by omega
  have hfir' : ¬ bytes-width*2≤width*2 := by omega
  have hsec : ¬ bytes-width*2-width≤width := by omega
  -- the first packet completes inside of its post, the others later
  have hex : ∃ s', execEvents (step pack width) [.complete,.complete,.complete,.resume,.complete]
      { (start machine (bytes-width*2) 2 (sendEnvelope header type)).packAndPost pack 0
        width (some Callback.completeData) with second := some (width, some .completeData) } = some s' ∧
      s'.overwritten=true := by
    by_cases hfour : bytes-width*2-width≤width*2
    · simp [execEvents,step,Transfer.step,packAndPost,start,sendEnvelope,run,
        completeData,use,hfir,hfir',hsec,hfour]
    · simp [execEvents,step,Transfer.step,packAndPost,start,sendEnvelope,run,
        completeData,use,hfir,hfir',hsec,hfour]
  obtain ⟨s',hs',hov⟩ := hex
  exact ⟨s',Run.refl.execEvents _ (fun _ _ _ => trivial) hs',hov⟩

end Pipeline

section Typed

variable {fresh : ℕ → Memory} {heap : Word → TypeCode} {t contigMax : TypeCode} {c : Code}

/-- A typed put of more than a packed packet does what it is for exactly if it has at most two packets,
or more than three and at most four, and the packets hold whole atoms. -/
theorem typed_put_iff (h : Represents t c) (hpos : 0 < c.size) (hsi : c.size < 2^64)
    (hmax : TypeCode.contig fresh heap 1 = some contigMax) (user : Word → Byte) (P : Packer user)
    (width bytes starts : ℕ) (header type : List Byte) :
    (∃ s0, sendData P.pack width t.getAtomSize.toNat bytes starts (sendEnvelope header type)
        (TypeMachine.new contigMax t) = some s0 ∧
      ∀ s, Run (step P.pack width) (fun _ _ => True) s0 s → Transmits (packedBytes user c) bytes s) ↔
      width % t.getAtomSize.toNat = 0 ∧ (bytes ≤ width*2 ∨ width*3 < bytes ∧ bytes ≤ width*4) := by
  obtain ⟨At,hp,hsta,-⟩ := P.packs h hpos hsi hmax
  constructor
  · intro ⟨s0,hs0,htra⟩
    have hatom : width % t.getAtomSize.toNat=0 := by
      by_contra hne
      rw [sendData,if_pos hne] at hs0
      cases hs0
    refine ⟨hatom,?_⟩
    by_contra hbyt
    have hthan : width*2<bytes := by omega
    obtain ⟨s,hs,hlong⟩ := sendData_long P.pack (TypeMachine.new contigMax t) hatom hthan starts
      header type
    obtain rfl := some.inj (hs0.symm.trans hs)
    by_cases hthr : bytes≤width*3
    · obtain ⟨s',hrun,hlt⟩ := three_packets_repeat hp hsta hthan hthr header type
      rw [← hlong] at hrun
      obtain ⟨k,hk,hsn⟩ := (htra s' hrun).sent
      rw [hsn,packedBytes_length] at hlt
      omega
    · have hfour : width*4<bytes := by omega
      obtain ⟨s',hrun,hov⟩ := five_packets_overwrite P.pack (TypeMachine.new contigMax t) hfour
        header type
      rw [← hlong] at hrun
      have hnot := (htra s' hrun).overwritten
      rw [hov] at hnot
      cases hnot
  · intro ⟨hatom,hbyt⟩
    obtain ⟨s0,hs0,hphs⟩ := sendData_phases hp hsta starts header type hatom hbyt
    refine ⟨s0,hs0,fun s hrun => ?_⟩
    apply Phases.transmits
    apply hrun.invariant hphs
    intro s e s' hphs _ hs
    exact hphs.step hp hs

theorem typed_put_iff_four_packets : ∃ P : Packer fun _ => 0, ∃ c, Represents fourByteBlocks c ∧
    ∃ s0, sendData P.pack 512 fourByteBlocks.getAtomSize.toNat 2000 0 (sendEnvelope [] [])
        (TypeMachine.new contigMaxType fourByteBlocks) = some s0 ∧
      ∀ s, Run (step P.pack 512) (fun _ _ => True) s0 s → Transmits (packedBytes (fun _ => 0) c) 2000 s := by
  obtain ⟨P⟩ : Nonempty (Packer fun _ => 0) := inferInstance
  obtain ⟨c,hrep,hsi⟩ := fourByteBlocks_represents
  refine ⟨P,c,hrep,?_⟩
  exact (typed_put_iff hrep (by omega) (by omega) contigMaxType_eq (fun _ => 0) P 512 2000 0 [] []).mpr
    ⟨by decide,.inr (by decide)⟩

/-- A put of exactly three packets posts four of them. -/
theorem typed_put_three_packets : ∃ P : Packer fun _ => 0, ∃ c, Represents fourByteBlocks c ∧
    ∃ s0 s, sendData P.pack 512 fourByteBlocks.getAtomSize.toNat 1536 0 (sendEnvelope [] [])
        (TypeMachine.new contigMaxType fourByteBlocks) = some s0 ∧
      Run (step P.pack 512) (fun _ _ => True) s0 s ∧ 1536 < s.sent.length ∧
      ¬ Transmits (packedBytes (fun _ => 0) c) 1536 s := by
  obtain ⟨P⟩ : Nonempty (Packer fun _ => 0) := inferInstance
  obtain ⟨c,hrep,hsi⟩ := fourByteBlocks_represents
  obtain ⟨At,hp,hsta,-⟩ := P.packs hrep (by omega) (by omega) contigMaxType_eq
  have hatom : 512 % fourByteBlocks.getAtomSize.toNat=0 := by decide
  have hlong : 512*2<1536 := by decide
  have hthr : 1536≤512*3 := by decide
  obtain ⟨s0,hs0,hstt⟩ := sendData_long P.pack (TypeMachine.new contigMaxType fourByteBlocks) hatom
    hlong 0 [] []
  obtain ⟨s,hrun,hlt⟩ := three_packets_repeat hp hsta hlong hthr [] []
  refine ⟨P,c,hrep,s0,s,hs0,?_,hlt,fun htra => ?_⟩
  · rw [hstt]
    exact hrun
  · obtain ⟨k,hk,hsn⟩ := htra.sent
    rw [hsn,packedBytes_length] at hlt
    omega

end Typed

end PAMI.Protocol.PutOverSend
