import PAMI.Math.Interleaving
import PAMI.Protocol.EagerTyped

namespace PAMI.Protocol.EagerSimple

open PAMI.Math PAMI.Datatype Transfer List Option Nat

/-- A call of the application at an origin endpoint. The machine of a message without a type, and the
counter of one with a type, are what its state happens to hold. -/
inductive Call (ι M : Type*) where
  | immediate (target : ι) (header data : List Byte) (machine : M)
  | simple (target : ι) (header data : List Byte) (machine : M)
  | typed (target : ι) (header : List Byte) (atomSize bytes starts : ℕ) (machine : M)

/-- A send that was started. -/
structure Sending (ι M : Type*) where
  target : ι
  isPacked : Bool
  transfer : Transfer M Byte Callback

/-- An origin endpoint: the sends that were started, and all posts to the packet model in their
order. -/
structure Origin (ι M : Type*) where
  sends : List (Sending ι M)
  log : List (Entry ι)

/-- What can happen at an origin endpoint: a call of the application, or an event of a send. -/
inductive OriginEvent (ι M : Type*) where
  | start (call : Call ι M)
  | send (i : ℕ) (e : TransferEvent)

variable {ι M : Type*}

def Call.target : Call ι M → ι
  | .immediate target .. => target
  | .simple target .. => target
  | .typed target .. => target

def Call.isPacked (m : PacketModel) (option : SendOption) : Call ι M → Bool
  | .immediate .. => true
  | .simple _ header data _ => EagerSimple.isPacked m option header.length data.length
  | .typed _ header _ bytes .. => EagerSimple.isPacked m option header.length bytes

section Model

variable (pack : M → ℕ → List Byte × M) (m : PacketModel) (option : SendOption)

/-- `immediate_impl`, `simple_impl` and `typed_impl`; `none` where the call aborts. -/
def Call.transfer : Call ι M → Option (Transfer M Byte Callback)
  | .immediate _ header data machine => some (immediateImpl header data machine)
  | .simple _ header data machine => some (simpleImpl m option header data machine)
  | .typed _ header atomSize bytes starts machine =>
    if EagerSimple.isPacked m option header.length bytes then
      some (start machine 0 0 (sendPacked header (pack machine bytes).1))
    else typedImpl pack m option atomSize bytes starts header machine

def posted (s : Transfer M Byte Callback) : ℕ := (s.completed ++ s.inFlight).length

/-- The log entries of some posts of a send. The first post of one that is not packed is its
envelope. -/
def entries (i : ℕ) (x : Sending ι M) (first count : ℕ) : List (Entry ι) :=
  (List.range' first count).map fun k => ⟨i, x.target, !x.isPacked && k == 0⟩

/-- One event. A call of the application is not made during another one. -/
def Origin.step (s : Origin ι M) : OriginEvent ι M → Option (Origin ι M)
  | .start call =>
    if s.sends.all (·.transfer.second.isNone) then
      (call.transfer pack m option).map fun t =>
        let x := ⟨call.target, call.isPacked m option, t⟩
        { sends := s.sends ++ [x], log := s.log ++ entries s.sends.length x 0 (posted t) }
    else none
  | .send i e =>
    s.sends[i]?.bind fun x => (EagerSimple.step pack m x.transfer e).map fun t =>
        { sends := s.sends.set i { x with transfer := t }
          log := s.log ++ entries i x (posted x.transfer) (posted t - posted x.transfer) }

end Model

def Origin.empty : Origin ι M := ⟨[], []⟩

def Pipelined (s : Transfer M Byte Callback) : Prop :=
  s.second.isSome ∨ ∃ post ∈ s.inFlight, post.callback = some .completeData

/-- A message that is not one packed packet is only started when no pipelined send to its target has
data packets to post. -/
def StartsApart (m : PacketModel) (option : SendOption) (s : Origin ι M) : OriginEvent ι M → Prop
  | .start call => call.isPacked m option = false →
    ∀ x ∈ s.sends, x.target = call.target → ¬ Pipelined x.transfer
  | .send .. => True

section Order

variable {pack : M → ℕ → List Byte × M} {m : PacketModel} {option : SendOption} {t : Transfer M Byte Callback}
  {e : TransferEvent} {call : Call ι M}

theorem mem_entries {i first count : ℕ} {x : Sending ι M} {e : Entry ι}
    (he : e ∈ entries i x first count) :
    e.stream=i ∧ e.target=x.target ∧ (e.opening → x.isPacked=false ∧ first=0) := by
  obtain ⟨k,hk,rfl⟩ := List.mem_map.mp he
  refine ⟨rfl,rfl,fun hope => ?_⟩
  simp only [Bool.and_eq_true,Bool.not_eq_true',beq_iff_eq] at hope
  have hle := (mem_range'_1.mp hk).1
  exact ⟨hope.1,by omega⟩

theorem sendEnvelope_ne_nil (m : PacketModel) (option : SendOption) (header : List Byte) (done : Option Callback) :
    sendEnvelope m option header done ≠ [] := by
  rw [sendEnvelope]
  split <;> exact cons_ne_nil _ _

theorem posted_start (machine : M) (remaining starts : ℕ) (envelope : List (Post Byte Callback)) :
    posted (start machine remaining starts envelope) = envelope.length := rfl

theorem posted_use (s : Transfer M Byte Callback) : posted s.use = posted s := by
  rw [use]
  split <;> rfl

theorem posted_packAndPost (s : Transfer M Byte Callback) (buffer n : ℕ)
    (callback : Option Callback) : posted (s.packAndPost pack buffer n callback) = posted s+1 := by
  simp [posted,packAndPost,add_assoc]

theorem sendData_posted {atomSize bytes starts : ℕ} {envelope : List (Post Byte Callback)} {machine : M}
    (ht : sendData pack m atomSize bytes starts envelope machine = some t) :
    posted t = envelope.length+1 := by
  simp only [sendData] at ht
  split at ht
  · cases ht
  split at ht
  · obtain rfl := some.inj ht
    exact posted_packAndPost _ _ _ _
  split at ht
  · obtain rfl := some.inj ht
    simp [posted,packAndPost,start]
  · obtain rfl := some.inj ht
    simp [posted,packAndPost,start]

theorem Call.transfer_posted (ht : call.transfer pack m option = some t) : 0 < posted t := by
  have henv (header : List Byte) (done : Option Callback) :=
    length_pos_of_ne_nil (sendEnvelope_ne_nil m option header done)
  cases call with
  | immediate target header data machine =>
    obtain rfl := some.inj ht
    exact zero_lt_one
  | simple target header data machine =>
    obtain rfl := some.inj ht
    rw [simpleImpl]
    split
    · exact zero_lt_one
    split
    · exact henv header _
    · rw [posted_start,length_append]
      exact Nat.add_pos_right _ zero_lt_one
  | typed target header atomSize bytes starts machine =>
    simp only [Call.transfer] at ht
    split at ht
    · obtain rfl := some.inj ht
      exact zero_lt_one
    rw [typedImpl] at ht
    split at ht
    · obtain rfl := some.inj ht
      exact henv header _
    · rw [sendData_posted ht]
      exact succ_pos _

theorem step_posted {s s' : Transfer M Byte Callback} (hs : step pack m s e = some s') :
    posted s ≤ posted s' := by
  cases e with
  | resume =>
    simp only [step,Transfer.step] at hs
    split at hs
    · cases hs
    · obtain rfl := some.inj hs
      rw [posted_packAndPost]
      exact le_succ_of_le (posted_use s).ge
  | complete =>
    simp only [step,Transfer.step] at hs
    split at hs
    · cases hs
    next post rest hfli =>
      generalize hu : ({ s with completed := s.completed ++ [post], inFlight := rest } :
        Transfer M Byte Callback)=u at hs
      have hpst : posted u = posted s := by
        rw [← hu]
        simp [posted,hfli]
      rw [← hpst]
      split at hs
      · obtain rfl := some.inj hs
        exact le_refl _
      next f _ =>
        obtain rfl := some.inj hs
        cases f with
        | completeData =>
          have huse := (posted_use u).ge
          simp only [run,completeData]
          split
          · rw [posted_packAndPost]
            exact le_succ_of_le huse
          split
          · rw [posted_packAndPost]
            exact le_succ_of_le huse
          · rw [posted_packAndPost]
            exact le_succ_of_le huse
        | sendComplete =>
          have hen : Transfer.EndsWith (run pack m) Callback.sendComplete := sendComplete_endsWith
          exact le_of_eq (by simp [posted,hen.completed,hen.inFlight])

theorem step_quiet {s s' : Transfer M Byte Callback} (h : ¬ Pipelined s) (hs : step pack m s e = some s') :
    ¬ Pipelined s' ∧ posted s' = posted s := by
  have hsec : s.second=none := by
    by_contra hne
    exact h (.inl (isSome_iff_ne_none.mpr hne))
  cases e with
  | resume => simp [step,Transfer.step,hsec] at hs
  | complete =>
    simp only [step,Transfer.step] at hs
    split at hs
    · cases hs
    next post rest hfli =>
      have hrs : ∀ q ∈ rest, q.callback≠some .completeData := by
        intro q hq hcll
        exact h (.inr ⟨q,by rw [hfli]; exact mem_cons_of_mem _ hq,hcll⟩)
      split at hs
      · obtain rfl := some.inj hs
        refine ⟨?_,by simp [posted,hfli]⟩
        rintro (hs' | ⟨q,hq,hcll⟩)
        · simp [hsec] at hs'
        · exact hrs q hq hcll
      next f hcll =>
        obtain rfl := some.inj hs
        cases f with
        | completeData => exact absurd (.inr ⟨post,by simp [hfli],hcll⟩) h
        | sendComplete =>
          have hen : Transfer.EndsWith (run pack m) Callback.sendComplete := sendComplete_endsWith
          refine ⟨?_,by simp [posted,hen.completed,hen.inFlight,hfli]⟩
          rintro (hs' | ⟨q,hq,hcll⟩)
          · simp [hen.second,hsec] at hs'
          · rw [hen.inFlight] at hq
            exact hrs q hq hcll

/-- The invariant of an origin endpoint: its log is that of its sends, and no message to the target of a
pipelined send was opened after it. -/
structure Ordered (s : Origin ι M) : Prop where
  known : ∀ e ∈ s.log, ∃ x, s.sends[e.stream]? = some x ∧ e.target = x.target
  opened : ∀ (i : ℕ) (x : Sending ι M), s.sends[i]? = some x → 0 < posted x.transfer
  last : ∀ (i : ℕ) (x : Sending ι M), s.sends[i]? = some x → Pipelined x.transfer → ¬ Overtaken s.log i
  apart : ¬ Interleaved s.log

theorem Ordered.empty : Ordered (Origin.empty : Origin ι M) := by
  refine ⟨?_,?_,?_,?_⟩
  · simp [Origin.empty]
  · simp [Origin.empty]
  · simp [Origin.empty]
  · rintro ⟨a,b,c,hsub,-⟩
    have := hsub.length_le
    simp [Origin.empty] at this

theorem Ordered.start {s s' : Origin ι M} (h : Ordered s) (hok : StartsApart m option s (.start call))
    (hs : s.step pack m option (.start call) = some s') : Ordered s' := by
  simp only [Origin.step] at hs
  split at hs
  swap
  · cases hs
  obtain ⟨t,ht,rfl⟩ := map_eq_some_iff.mp hs
  generalize hx : (⟨call.target,call.isPacked m option,t⟩ : Sending ι M)=x
  have hnew : ∀ e ∈ s.log, e.stream≠s.sends.length := by
    intro e he
    obtain ⟨y,hy,-⟩ := h.known e he
    exact (List.getElem?_eq_some_iff.mp hy).1.ne
  have hblo : ∀ e ∈ entries s.sends.length x 0 (posted t), e.stream=s.sends.length := fun e he => (mem_entries he).1
  have hla : (s.sends ++ [x])[s.sends.length]? = some x := by simp
  have hcas {i : ℕ} {y : Sending ι M} (hy : (s.sends ++ [x])[i]? = some y) :
      s.sends[i]? = some y ∨ i=s.sends.length ∧ y=x := by
    rcases lt_trichotomy i s.sends.length with hi | rfl | hi
    · rw [List.getElem?_append_left hi] at hy
      exact .inl hy
    · rw [hla] at hy
      exact .inr ⟨rfl,(some.inj hy).symm⟩
    · rw [List.getElem?_eq_none (by rw [length_append]; exact hi)] at hy
      cases hy
  refine ⟨?_,?_,?_,?_⟩
  · intro e he
    rcases mem_append.mp he with he | he
    · obtain ⟨y,hy,htar⟩ := h.known e he
      refine ⟨y,?_,htar⟩
      rw [List.getElem?_append_left (List.getElem?_eq_some_iff.mp hy).1]
      exact hy
    · obtain ⟨hstr,htar,-⟩ := mem_entries he
      exact ⟨x,by rw [hstr]; exact hla,htar⟩
  · intro i y hy
    rcases hcas hy with hy | ⟨-,rfl⟩
    · exact h.opened i y hy
    · rw [← hx]
      exact Call.transfer_posted ht
  · intro i y hy hpip hov
    rcases Overtaken.of_append_new hblo hov with hov | ⟨hi,a,ha,b,hb,rfl,hope,htar⟩
    · rcases hcas hy with hy | ⟨rfl,-⟩
      · exact h.last i y hy hpip hov
      · obtain ⟨a,b,hsub,ha,-⟩ := hov
        exact hnew a (hsub.subset (by simp)) ha
    · have hy := (hcas hy).resolve_right fun hy => hi hy.1
      obtain ⟨z,hz,haz⟩ := h.known a ha
      obtain rfl := some.inj (hy.symm.trans hz)
      obtain ⟨-,hbx,hpac⟩ := mem_entries hb
      have hcall : call.isPacked m option=false := by rw [← (hpac hope).1,← hx]
      refine hok hcall y (mem_of_getElem? hy) ?_ hpip
      rw [← haz,← htar,hbx,← hx]
  · exact fun hinr => h.apart (hinr.of_append_new hblo hnew)

theorem Ordered.send {s s' : Origin ι M} {i : ℕ} (h : Ordered s)
    (hs : s.step pack m option (.send i e) = some s') : Ordered s' := by
  simp only [Origin.step] at hs
  obtain ⟨x,hx,hs⟩ := bind_eq_some_iff.mp hs
  obtain ⟨t,ht,rfl⟩ := map_eq_some_iff.mp hs
  have hi : i < s.sends.length := (List.getElem?_eq_some_iff.mp hx).1
  have hpos := h.opened i x hx
  generalize hblo : entries i x (posted x.transfer) (posted t-posted x.transfer)=block
  have hstr : ∀ e ∈ block, e.stream=i := by
    rintro e he
    rw [← hblo] at he
    exact (mem_entries he).1
  have hopen : ∀ e ∈ block, e.opening=false := by
    intro e he
    rw [← hblo] at he
    by_contra hope
    have := ((mem_entries he).2.2 (by simpa using hope)).2
    omega
  have hset {j : ℕ} {y : Sending ι M} (hy : (s.sends.set i { x with transfer := t })[j]? = some y) :
      j≠i ∧ s.sends[j]? = some y ∨ j=i ∧ y = { x with transfer := t } := by
    by_cases hj : j=i
    · rw [hj,List.getElem?_set_self hi] at hy
      exact .inr ⟨hj,(some.inj hy).symm⟩
    · rw [List.getElem?_set_ne (Ne.symm hj)] at hy
      exact .inl ⟨hj,hy⟩
  refine ⟨?_,?_,?_,?_⟩
  · have hkno (e : Entry ι) (y : Sending ι M) (hy : s.sends[e.stream]? = some y)
        (htar : e.target=y.target) :
        ∃ z, (s.sends.set i { x with transfer := t })[e.stream]? = some z ∧ e.target=z.target := by
      by_cases he : e.stream=i
      · rw [he] at hy ⊢
        obtain rfl := some.inj (hx.symm.trans hy)
        exact ⟨_,List.getElem?_set_self hi,htar⟩
      · exact ⟨y,by rw [List.getElem?_set_ne (Ne.symm he)]; exact hy,htar⟩
    intro e he
    rcases mem_append.mp he with he | he
    · obtain ⟨y,hy,htar⟩ := h.known e he
      exact hkno e y hy htar
    · rw [← hblo] at he
      obtain ⟨hstr,htar,-⟩ := mem_entries he
      exact hkno e x (by rw [hstr]; exact hx) htar
  · intro j y hy
    rcases hset hy with ⟨-,hy⟩ | ⟨-,rfl⟩
    · exact h.opened j y hy
    · exact lt_of_lt_of_le hpos (step_posted ht)
  · intro j y hy hpip hov
    have hov' := Overtaken.of_append_open hopen hov
    rcases hset hy with ⟨-,hy⟩ | ⟨rfl,rfl⟩
    · exact h.last j y hy hpip hov'
    · refine h.last j x hx ?_ hov'
      by_contra hqui
      exact (step_quiet hqui ht).1 hpip
  · intro hinr
    rcases hinr.of_append_open hstr hopen with hinr | ⟨hne,hov⟩
    · exact h.apart hinr
    · refine h.last i x hx ?_ hov
      by_contra hqui
      rw [← hblo,(step_quiet hqui ht).2,Nat.sub_self] at hne
      exact hne rfl

/-- In every run that starts messages apart, no message is opened between the envelope of another one to
the same target and a later packet of it. -/
theorem sends_not_interleaved {s : Origin ι M}
    (h : Run (Origin.step pack m option) (StartsApart m option) Origin.empty s) :
    ¬ Interleaved s.log := by
  have hord : Ordered s := by
    apply h.invariant Ordered.empty
    intro s e s' h hok hs
    cases e with
    | start call => exact h.start hok hs
    | send i e => exact h.send hs
  exact hord.apart

theorem sends_not_interleaved_packed : ∃ P : Packer fun _ => 0, ∃ s,
    execEvents (Origin.step P.pack smallPackets ⟨false, false, false⟩)
      [.start (.typed 0 [] 4 1536 0 (TypeMachine.new contigMaxType fourByteBlocks)), .send 0 .resume,
        .start (.simple 0 [] [1, 2] (TypeMachine.new contigMaxType fourByteBlocks)),
        .send 0 .complete, .send 0 .complete] Origin.empty = some s ∧
    s.log.map (·.stream) = [0, 0, 0, 1, 0] ∧ ¬ Interleaved s.log := by
  obtain ⟨P⟩ : Nonempty (Packer fun _ => 0) := inferInstance
  refine ⟨P,_,rfl,rfl,?_⟩
  have hrun (s1 : Origin ℕ TypeMachine) (es : List (OriginEvent ℕ TypeMachine))
      (hes : ∀ s, ∀ e ∈ es, StartsApart smallPackets ⟨false,false,false⟩ s e)
      (hs1 : Origin.step P.pack smallPackets ⟨false,false,false⟩ Origin.empty (.start (.typed 0 [] 4
        1536 0 (TypeMachine.new contigMaxType fourByteBlocks))) = some s1) (s : Origin ℕ TypeMachine)
      (hs : execEvents (Origin.step P.pack smallPackets ⟨false,false,false⟩) es s1 = some s) :
      Run (Origin.step P.pack smallPackets ⟨false,false,false⟩)
        (StartsApart smallPackets ⟨false,false,false⟩) Origin.empty s := by
    refine Run.execEvents (Run.refl.step (fun _ x hx => ?_) hs1) es hes hs
    cases hx
  apply sends_not_interleaved (hrun _ [.send 0 .resume,.start (.simple 0 [] [1,2]
    (TypeMachine.new contigMaxType fourByteBlocks)),.send 0 .complete,.send 0 .complete] ?_ rfl _ rfl)
  intro s e he
  simp only [mem_cons,not_mem_nil,or_false] at he
  rcases he with rfl | rfl | rfl | rfl
  · trivial
  · intro hpac
    cases hpac
  · trivial
  · trivial

/-- A message of two data packets is sent between the posts of a pipelined one to the same target. -/
theorem sends_interleaved : ∃ P : Packer fun _ => 0, ∃ s : Origin ℕ TypeMachine,
    Run (Origin.step P.pack smallPackets ⟨false, false, false⟩) (fun _ _ => True) Origin.empty s ∧
      Interleaved s.log := by
  obtain ⟨P⟩ : Nonempty (Packer fun _ => 0) := inferInstance
  refine ⟨P,_,Run.refl.execEvents
    [.start (.typed 0 [] 4 1536 0 (TypeMachine.new contigMaxType fourByteBlocks)),.send 0 .resume,
      .start (.typed 0 [] 4 600 0 (TypeMachine.new contigMaxType fourByteBlocks)),.send 1 .resume,
      .send 0 .complete,.send 0 .complete] (fun _ _ _ => trivial) rfl,?_⟩
  show Interleaved [⟨0,0,true⟩,⟨0,0,false⟩,⟨0,0,false⟩,⟨1,0,true⟩,⟨1,0,false⟩,
    ⟨1,0,false⟩,⟨0,0,false⟩]
  exact ⟨⟨0,0,true⟩,⟨1,0,true⟩,⟨0,0,false⟩,by decide,rfl,rfl,by decide,rfl,rfl⟩

end Order

end PAMI.Protocol.EagerSimple
