import PAMI.Protocol.EagerSimple

namespace PAMI.Protocol.EagerSimple

open PAMI.Math PAMI.Datatype Transfer TypeMachine List Option

section Pipeline

variable {M : Type*} {pack : M → ℕ → List Byte × M} {m : PacketModel} {option : SendOption}
  {At : M → ℕ → Prop} {slice : ℕ → ℕ → List Byte} {s s' : Transfer M Byte Callback} {o k : ℕ}

theorem sendComplete_endsWith : Transfer.EndsWith (run pack m) Callback.sendComplete := by
  constructor <;> intro s <;> by_cases h : s.ends=0 <;>
    simp [run,sendComplete,finish,use,h]

theorem sendEnvelope_quiet (m : PacketModel) (option : SendOption) (header : List Byte) :
    ∀ q ∈ sendEnvelope m option header none, q.callback=none ∧ q.buffer=none := by
  intro q hq
  rw [sendEnvelope] at hq
  split at hq
  · simp only [mem_cons,not_mem_nil,or_false] at hq
    rcases hq with rfl | rfl <;> exact ⟨rfl,rfl⟩
  · obtain rfl := mem_singleton.mp hq
    exact ⟨rfl,rfl⟩

theorem sendEnvelope_last (m : PacketModel) (option : SendOption) (header : List Byte) (done : Option Callback) :
    ∃ before last, sendEnvelope m option header done = before ++ [last] ∧
      (∀ q ∈ before, q.callback=none ∧ q.buffer=none) ∧ last.callback=done ∧
      last.buffer=none := by
  rw [sendEnvelope]
  split
  · refine ⟨[_],_,rfl,fun q hq => ?_,rfl,rfl⟩
    obtain rfl := mem_singleton.mp hq
    exact ⟨rfl,rfl⟩
  · exact ⟨[],_,rfl,fun q hq => (by cases hq),rfl,rfl⟩

theorem typedImpl_lastPart (option : SendOption) (hp : Packs pack At slice) {machine : M} (hmac : At machine o)
    {atomSize bytes : ℕ} (starts : ℕ) (header : List Byte)
    (hbyt : bytes=0 ∨ m.payloadBytes%atomSize=0 ∧ bytes ≤ m.payloadBytes*2) :
    ∃ s, typedImpl pack m option atomSize bytes starts header machine = some s ∧
      s.LastPart At slice o bytes Callback.sendComplete := by
  have hqui := sendEnvelope_quiet m option header
  rw [typedImpl]
  by_cases hzr : bytes=0
  · rw [if_pos hzr]
    obtain ⟨before,last,henv,hbef,hla,hbuf⟩ := sendEnvelope_last m option header (some .sendComplete)
    refine ⟨_,rfl,.inr ⟨.inl ⟨rfl,⟨before,last,henv,fun q hq => (hbef q hq).1,hla⟩,rfl,rfl⟩,?_⟩⟩
    rw [hzr]
    apply Transfer.Sent.start hp hmac
    intro q hq
    rw [henv,mem_append,mem_singleton] at hq
    rcases hq with hq | rfl
    · exact (hbef q hq).2
    · exact hbuf
  · obtain ⟨hatom,htwo⟩ := hbyt.resolve_left hzr
    have hsta := Transfer.Sent.start hp hmac (fun q hq => (hqui q hq).2) bytes starts
    have hbuf : (sendEnvelope m option header none).any (·.buffer == some 0)=false :=
      not_any_buffer fun q hq => by simp [(hqui q hq).2]
    rw [if_neg hzr,sendData,if_neg (by omega)]
    by_cases hsho : bytes ≤ m.payloadBytes
    · rw [if_pos hsho]
      refine ⟨_,rfl,.inr ⟨.inl ⟨rfl,⟨_,_,rfl,fun q hq => (hqui q hq).1,rfl⟩,hbuf,rfl⟩,?_⟩⟩
      have hsn := hsta.packAndPost hp 0 bytes (some Callback.sendComplete)
      rw [zero_add] at hsn
      exact hsn
    · rw [if_neg hsho,if_pos htwo]
      refine ⟨_,rfl,.inl ⟨bytes-m.payloadBytes,m.payloadBytes,by omega,⟨rfl,fun q hq => ?_,hbuf,rfl⟩,?_⟩⟩
      · rcases mem_append.mp hq with hq | hq
        · simp [hqui q hq]
        · simp [mem_singleton.mp hq]
      · have hsn := hsta.packAndPost hp 0 m.payloadBytes none
        rw [zero_add] at hsn
        exact hsn.congr rfl rfl

theorem typedImpl_ends {atomSize bytes starts : ℕ} {header : List Byte} {machine : M}
    (hs : typedImpl pack m option atomSize bytes starts header machine = some s) : s.ends=0 := by
  rw [typedImpl] at hs
  split at hs
  · obtain rfl := some.inj hs
    rfl
  · simp only [sendData] at hs
    split at hs
    · cases hs
    · split at hs
      · obtain rfl := some.inj hs
        rfl
      · split at hs
        · obtain rfl := some.inj hs
          rfl
        · obtain rfl := some.inj hs
          rfl

theorem step_lateUses (h : s.ends ≤ s.lateUses) {e : TransferEvent}
    (hs : step pack m s e = some s') : s'.ends ≤ s'.lateUses := by
  have huse (u : Transfer M Byte Callback) (hu : u.ends≤u.lateUses) :
      u.use.ends≤u.use.lateUses := by
    rw [use]
    split
    · exact hu
    · exact Nat.le_succ_of_le hu
  cases e with
  | resume =>
    simp only [step,Transfer.step] at hs
    split at hs
    · cases hs
    · obtain rfl := some.inj hs
      exact huse s h
  | complete =>
    simp only [step,Transfer.step] at hs
    split at hs
    · cases hs
    next post rest hfli =>
      split at hs
      · obtain rfl := some.inj hs
        exact h
      next f _ =>
        obtain rfl := some.inj hs
        generalize hu : ({ s with completed := s.completed ++ [post], inFlight := rest } :
          Transfer M Byte Callback)=u
        have h' : u.ends≤u.lateUses := by
          rw [← hu]
          exact h
        cases f with
        | completeData =>
          have huse' := huse u h'
          simp only [run,completeData]
          split
          · exact huse'
          · split <;> exact huse'
        | sendComplete =>
          simp only [run,sendComplete,finish]
          by_cases hen : u.ends=0
          · simp [use,hen]
          · simp [use,hen]
            omega

theorem pipeline_overruns (hp : Packs pack At slice) (bytes : ℕ) {p q : Post Byte Callback}
    (hfli : s.inFlight = [p,q]) (hp' : p.callback = some .completeData)
    (hq : q.callback = some .completeData) (hen : s.ends=0) (hsn : s.Sent At slice o k)
    (hlf : m.payloadBytes*2 < s.remaining) (hk : k+s.remaining=bytes+m.payloadBytes*2) :
    ∃ s' k', Run (step pack m) (fun _ _ => True) s s' ∧ s'.Sent At slice o k' ∧ bytes<k' := by
  generalize hn : s.remaining=n
  induction n using Nat.strongRecOn generalizing s k p q with
  | _ n ih =>
    have hpos := m.address_le
    have hone : ¬ s.remaining ≤ m.payloadBytes := by omega
    have htwo : ¬ s.remaining ≤ m.payloadBytes*2 := by omega
    obtain ⟨s1,last,hs1,hfli1,hla,hen1,hrem1,hsn1⟩ : ∃ s1 last,
        step pack m s .complete = some s1 ∧ s1.inFlight = [q,last] ∧
        last.callback=some Callback.completeData ∧ s1.ends=0 ∧
        s1.remaining=s.remaining-m.payloadBytes ∧ s1.Sent At slice o (k+m.payloadBytes) := by
      have hsn' : Transfer.Sent At slice o k { s with
          starts := s.starts+1, remaining := s.remaining-m.payloadBytes
          completed := s.completed ++ [p], inFlight := [q] } :=
        hsn.completes hfli rfl rfl rfl
      refine ⟨_,⟨some (s.starts &&& 1),(pack s.machine m.payloadBytes).1,some .completeData⟩,?_,
        rfl,rfl,?_,?_,hsn'.packAndPost hp (s.starts &&& 1) m.payloadBytes (some .completeData)⟩
      · simp only [step,Transfer.step,hfli,hp',run,completeData,use,if_pos hen,if_neg hone,if_neg htwo]
      · exact hen
      · rfl
    by_cases hmore : m.payloadBytes*2 < s1.remaining
    · obtain ⟨s',k',hrun,hsn',hlt⟩ := ih s1.remaining (by omega) hfli1 hq hla hen1 hsn1
        hmore (by omega) rfl
      exact ⟨s',k',(Run.refl.step trivial hs1).trans hrun,hsn',hlt⟩
    · have hone1 : ¬ s1.remaining ≤ m.payloadBytes := by omega
      have htwo1 : s1.remaining ≤ m.payloadBytes*2 := by omega
      have hsn' : Transfer.Sent At slice o (k+m.payloadBytes) { s1 with
          starts := s1.starts+1, remaining := s1.remaining-m.payloadBytes
          completed := s1.completed ++ [q], inFlight := [last] } :=
        hsn1.completes hfli1 rfl rfl rfl
      have hs2 : step pack m s1 .complete = some (packAndPost pack (s1.starts &&& 1) m.payloadBytes none { s1 with
            starts := s1.starts+1, remaining := s1.remaining-m.payloadBytes
            completed := s1.completed ++ [q], inFlight := [last] }) := by
        simp only [step,Transfer.step,hfli1,hq,run,completeData,use,if_pos hen1,if_neg hone1,if_pos htwo1]
      refine ⟨_,_,(Run.refl.step trivial hs1).step trivial hs2,
        hsn'.packAndPost hp (s1.starts &&& 1) m.payloadBytes none,?_⟩
      omega

theorem typedImpl_overruns (option : SendOption) (hp : Packs pack At slice) {machine : M} (hmac : At machine o)
    {atomSize bytes : ℕ} (starts : ℕ) (header : List Byte) (hatom : m.payloadBytes%atomSize=0)
    (hbyt : m.payloadBytes*2<bytes) :
    ∃ s s' k', typedImpl pack m option atomSize bytes starts header machine = some s ∧
      Run (step pack m) (fun _ _ => True) s s' ∧ s'.Sent At slice o k' ∧ bytes<k' := by
  have hqui := sendEnvelope_quiet m option header
  have hsta := Transfer.Sent.start hp hmac (fun q hq => (hqui q hq).2) bytes 2
  have hfir := hsta.packAndPost hp 0 m.payloadBytes (some .completeData)
  have hfir' : Transfer.Sent At slice o (0+m.payloadBytes)
      { (start machine bytes 2 (sendEnvelope m option header none)).packAndPost pack 0
        m.payloadBytes (some Callback.completeData) with second := none } := hfir.congr rfl rfl
  have hsec := hfir'.packAndPost hp 1 m.payloadBytes (some .completeData)
  -- both packets are posted, then the envelope completes
  have hrun : ∃ s, Run (step pack m) (fun _ _ => True)
      { (start machine bytes 2 (sendEnvelope m option header none)).packAndPost pack 0
        m.payloadBytes (some Callback.completeData) with
        second := some (m.payloadBytes, some .completeData) } s ∧
      (∃ p q, s.inFlight = [p,q] ∧ p.callback=some Callback.completeData ∧
        q.callback=some Callback.completeData) ∧ s.ends=0 ∧ s.remaining=bytes ∧
      s.Sent At slice o (0+m.payloadBytes+m.payloadBytes) := by
    by_cases hlong : isLongHeader m option header.length=true
    · rw [sendEnvelope,if_pos hlong] at hsec ⊢
      refine ⟨_,Run.refl.execEvents [.resume,.complete,.complete] (fun _ _ _ => trivial) rfl,
        ⟨_,_,rfl,rfl,rfl⟩,rfl,rfl,?_⟩
      exact hsec.congr rfl rfl
    · rw [sendEnvelope,if_neg hlong] at hsec ⊢
      refine ⟨_,Run.refl.execEvents [.resume,.complete] (fun _ _ _ => trivial) rfl,
        ⟨_,_,rfl,rfl,rfl⟩,rfl,rfl,?_⟩
      exact hsec.congr rfl rfl
  obtain ⟨s,hrun,⟨p,q,hfli,hp',hq⟩,hen,hrem,hsn⟩ := hrun
  obtain ⟨s',k',hrun',hsn',hlt⟩ := pipeline_overruns hp bytes hfli hp' hq hen
    hsn (show m.payloadBytes*2 < s.remaining by omega) (by omega)
  refine ⟨_,s',k',?_,hrun.trans hrun',hsn',hlt⟩
  have hpos := m.address_le
  rw [typedImpl,if_neg (by omega),sendData,if_neg (by omega),if_neg (by omega),if_neg (by omega)]
  rfl

end Pipeline

section Typed

variable {fresh : ℕ → Memory} {heap : Word → TypeCode} {t contigMax : TypeCode} {c : Code}

/-- A typed send that is not packed transmits its bytes and completes once, after all of its posts,
exactly if it has no data, or at most two packets of whole atoms. In all cases `send_complete` uses the
state after it has returned it. -/
theorem typed_send_exact (h : Represents t c) (hpos : 0 < c.size) (hsi : c.size < 2^64)
    (hmax : TypeCode.contig fresh heap 1 = some contigMax) (user : Word → Byte) (P : Packer user)
    {offset : Word} (hoft : WithinReach (machineCode c maxSize) offset) (m : PacketModel)
    (option : SendOption) (bytes starts : ℕ) (header : List Byte) :
    ((∃ s0, typedImpl P.pack m option t.getAtomSize.toNat bytes starts header
        (P.moveCursor (new contigMax t) offset) = some s0 ∧
      ∀ s, Run (step P.pack m) (fun _ _ => True) s0 s → s.Exact (packedBytes user c) offset.toNat bytes) ↔
      bytes = 0 ∨ m.payloadBytes % t.getAtomSize.toNat = 0 ∧ bytes ≤ m.payloadBytes*2) ∧
    ¬ ∃ s0, typedImpl P.pack m option t.getAtomSize.toNat bytes starts header
        (P.moveCursor (new contigMax t) offset) = some s0 ∧
      ∀ s, Run (step P.pack m) (fun _ _ => True) s0 s →
        s.Exact (packedBytes user c) offset.toNat bytes ∧ s.lateUses = 0 := by
  obtain ⟨At,hp,-,hmove⟩ := P.packs h hpos hsi hmax
  have hmac := hmove offset hoft
  have hiff : (∃ s0, typedImpl P.pack m option t.getAtomSize.toNat bytes starts header
        (P.moveCursor (new contigMax t) offset) = some s0 ∧
      ∀ s, Run (step P.pack m) (fun _ _ => True) s0 s → s.Exact (packedBytes user c) offset.toNat bytes) ↔
      bytes=0 ∨ m.payloadBytes % t.getAtomSize.toNat=0 ∧ bytes ≤ m.payloadBytes*2 := by
    constructor
    · intro ⟨s0,hs0,hexa⟩
      by_cases hzr : bytes=0
      · exact .inl hzr
      have hatom : m.payloadBytes % t.getAtomSize.toNat=0 := by
        by_contra hne
        rw [typedImpl,if_neg hzr,sendData,if_pos hne] at hs0
        cases hs0
      refine .inr ⟨hatom,?_⟩
      by_contra hlong
      obtain ⟨s,s',k',hs,hrun,hsn,hlt⟩ := typedImpl_overruns option hp hmac starts header
        hatom (Nat.lt_of_not_le hlong)
      obtain rfl := some.inj (hs0.symm.trans hs)
      obtain ⟨k,hk,hsn'⟩ := (hexa s' hrun).sent
      have hlng := hsn.length hp
      rw [hsn',packedBytes_length] at hlng
      omega
    · intro hbyt
      obtain ⟨s0,hs0,hla⟩ := typedImpl_lastPart option hp hmac starts header hbyt
      refine ⟨s0,hs0,fun s hrun => ?_⟩
      have hla' : s.LastPart At (packedBytes user c) offset.toNat bytes Callback.sendComplete := by
        apply hrun.invariant hla
        intro s e s' hla _ hs
        exact hla.step hp sendComplete_endsWith hs
      exact hla'.exact
  refine ⟨hiff,fun ⟨s0,hs0,hall⟩ => ?_⟩
  have hbyt := hiff.mp ⟨s0,hs0,fun s hrun => (hall s hrun).1⟩
  obtain ⟨s,hs,hla⟩ := typedImpl_lastPart option hp hmac starts header hbyt
  obtain rfl := some.inj (hs0.symm.trans hs)
  obtain ⟨s',hrun,hen⟩ := hla.run_end hp sendComplete_endsWith
  have hsta : s0.ends ≤ s0.lateUses := by
    rw [typedImpl_ends hs]
    exact Nat.zero_le _
  have hlate : s'.ends ≤ s'.lateUses := by
    refine hrun.invariant (P := fun s => s.ends ≤ s.lateUses) hsta ?_
    intro s e s' hle _ hs
    exact step_lateUses hle hs
  have hnn := (hall s' hrun).2
  omega

def smallPackets : PacketModel := ⟨512, 16, by decide, by decide⟩

theorem typed_send_exact_two_packets : ∃ P : Packer fun _ => 0, ∃ c, Represents fourByteBlocks c ∧
    ∃ s0, typedImpl P.pack smallPackets ⟨false, false, false⟩ fourByteBlocks.getAtomSize.toNat 1000 0 []
        (P.moveCursor (new contigMaxType fourByteBlocks) 4) = some s0 ∧
      ∀ s, Run (step P.pack smallPackets) (fun _ _ => True) s0 s → s.Exact (packedBytes (fun _ => 0) c) 4 1000 := by
  obtain ⟨P⟩ : Nonempty (Packer fun _ => 0) := inferInstance
  obtain ⟨c,hrep,hsi⟩ := fourByteBlocks_represents
  have hoft : WithinReach (machineCode c maxSize) 4 := by
    have hcon : c.isContiguous=false := by
      rw [← hrep.header.contiguous]
      decide
    rw [WithinReach,machineCode,hcon,if_neg (by decide),hsi]
    decide
  refine ⟨P,c,hrep,?_⟩
  exact (typed_send_exact hrep (by omega) (by omega) contigMaxType_eq (fun _ => 0) P hoft smallPackets
    ⟨false,false,false⟩ 1000 0 []).1.mpr (.inr (by decide))

/-- A send of three packets posts more than its bytes, and one of a packet uses its state after
returning it. -/
theorem typed_send_fails : ∃ P : Packer fun _ => 0, ∃ c, Represents fourByteBlocks c ∧
    (∃ s0 s, typedImpl P.pack smallPackets ⟨false, false, false⟩ fourByteBlocks.getAtomSize.toNat 1536 0
        [] (new contigMaxType fourByteBlocks) = some s0 ∧
      Run (step P.pack smallPackets) (fun _ _ => True) s0 s ∧ 1536 < s.sent.length) ∧
    ∃ s0 s, typedImpl P.pack smallPackets ⟨false, false, false⟩ fourByteBlocks.getAtomSize.toNat 512 0
        [] (new contigMaxType fourByteBlocks) = some s0 ∧
      Run (step P.pack smallPackets) (fun _ _ => True) s0 s ∧ s.lateUses ≠ 0 := by
  obtain ⟨P⟩ : Nonempty (Packer fun _ => 0) := inferInstance
  obtain ⟨c,hrep,hsi⟩ := fourByteBlocks_represents
  obtain ⟨At,hp,hmac,-⟩ := P.packs hrep (by omega) (by omega) contigMaxType_eq
  have hatom : smallPackets.payloadBytes % fourByteBlocks.getAtomSize.toNat=0 := by decide
  refine ⟨P,c,hrep,?_,?_⟩
  · have hlong : smallPackets.payloadBytes*2<1536 := by decide
    obtain ⟨s0,s,k,hs0,hrun,hsn,hlt⟩ := typedImpl_overruns ⟨false,false,false⟩ hp hmac 0 []
      hatom hlong
    refine ⟨s0,s,hs0,hrun,?_⟩
    rw [hsn.length hp]
    exact hlt
  · have hs0 : typedImpl P.pack smallPackets ⟨false,false,false⟩ fourByteBlocks.getAtomSize.toNat 512 0
        [] (new contigMaxType fourByteBlocks) =
        some (packAndPost P.pack 0 512 (some .sendComplete) (start (new contigMaxType fourByteBlocks) 512 0
            [⟨none,[],none⟩])) := by
      rw [typedImpl,if_neg (by decide),sendData,if_neg (by omega),if_pos (by decide)]
      rfl
    exact ⟨_,_,hs0,Run.refl.execEvents [.complete,.complete] (fun _ _ _ => trivial) rfl,one_ne_zero⟩

end Typed

end PAMI.Protocol.EagerSimple
