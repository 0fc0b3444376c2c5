import PAMI.Shmem.Dispatch

namespace PAMI.Shmem.Dispatch

open PAMI.Math Function List Option

variable {φ π : Type*} (sets : DispatchSets)

section Keys

variable {q : List (UnexpectedPacket π)} {id j : ℕ}

theorem filter_takeWhile_same :
    (q.takeWhile fun p => p.id=id).filter (fun p => p.id=id) = q.takeWhile fun p => p.id=id := by
  apply filter_eq_self.mpr
  intro p hmem
  simpa using mem_takeWhile_imp hmem

theorem filter_takeWhile_other (hj : j≠id) :
    (q.takeWhile fun p => p.id=id).filter (fun p => p.id=j) = [] := by
  apply filter_eq_nil_iff.mpr
  intro p hmem
  have hp : p.id=id := by simpa using mem_takeWhile_imp hmem
  simpa [hp] using Ne.symm hj

variable (q id j) in
theorem filter_split :
    q.filter (fun p => p.id=j) = (q.takeWhile fun p => p.id=id).filter (fun p => p.id=j) ++
        (q.dropWhile fun p => p.id=id).filter (fun p => p.id=j) := by
  rw [← filter_append,takeWhile_append_dropWhile]

theorem filter_dropWhile_other (hj : j≠id) :
    (q.dropWhile fun p => p.id=id).filter (fun p => p.id=j) = q.filter fun p => p.id=j := by
  rw [filter_split q id j,filter_takeWhile_other hj,nil_append]

end Keys

section Delivery

variable {sets} {s s' : Dispatch φ π} {id : ℕ} {f : φ}

theorem initial_placed : Placed sets (initial : Dispatch φ π) := ⟨by simp [initial],rfl⟩

theorem initial_delivered : Delivered sets (initial : Dispatch φ π) :=
  ⟨by simp [initial],by simp [initial,callsFor,arrivedFor,queuedFor]⟩

theorem Delivered.register_iff (h : Delivered sets s) (hid : s.function id = none)
    (s' : Dispatch φ π) (f : φ) (front rest : List (UnexpectedPacket π))
    (hfun : s'.function = update s.function id (some f))
    (hard : s'.arrived=s.arrived)
    (hcal : ∀ j, callsFor s' j = if j=id then front.map (f, ·) else callsFor s j)
    (hque : ∀ j, queuedFor sets s' j = if j=id then rest else queuedFor sets s j)
    (hspl : front ++ rest = queuedFor sets s id) : Delivered sets s' ↔ rest = [] := by
  have harr : ∀ j, arrivedFor s' j = arrivedFor s j := by simp [arrivedFor,hard]
  constructor
  · intro h'
    simpa [hque] using (h'.registered id f (by simp [hfun])).2
  · intro hrs
    have hfro : front=arrivedFor s id := by rw [← (h.unregistered id hid).2,← hspl,hrs,append_nil]
    constructor
    · intro j g hj
      by_cases hji : j=id
      · subst hji
        have hg : f=g := by simpa [hfun] using hj
        simp [hcal,hque,harr,hfro,hrs,hg]
      · have hj' : s.function j = some g := by simpa [hfun,hji] using hj
        simpa [hcal,hque,harr,hji] using h.registered j g hj'
    · intro j hj
      have hji : j≠id := by
        intro heq
        simp [heq,hfun] at hj
      have hj' : s.function j=none := by simpa [hfun,hji] using hj
      simpa [hcal,hque,harr,hji] using h.unregistered j hj'

theorem consume_placed (h : Placed sets s) (p : UnexpectedPacket π) :
    Placed sets (consume sets s p) := by
  unfold consume
  split
  · exact ⟨h.home,h.system⟩
  · refine ⟨fun k q hq => ?_,h.system⟩
    by_cases hk : k=p.id/sets.setSize
    · subst hk
      obtain hq | hq : q ∈ s.ueQ (p.id/sets.setSize) ∨ q=p := by simpa using hq
      · exact h.home _ q hq
      · rw [hq]
    · exact h.home k q (by simpa [hk] using hq)

theorem consume_delivered (h : Delivered sets s) (p : UnexpectedPacket π) :
    Delivered sets (consume sets s p) := by
  have harr : ∀ j, arrivedFor (consume sets s p) j = arrivedFor s j ++ if p.id=j then [p] else [] := by
    intro j
    unfold consume
    split <;> by_cases hj : p.id=j <;> simp [arrivedFor,hj]
  have hfun : (consume sets s p).function=s.function := by
    unfold consume
    split <;> rfl
  cases hp : s.function p.id with
  | some g =>
    have hcal : ∀ j, callsFor (consume sets s p) j = callsFor s j ++ if p.id=j then [(g, p)] else [] := by
      intro j
      by_cases hj : p.id=j
      · subst hj
        simp [consume,hp,callsFor]
      · simp [consume,hp,callsFor,hj]
    have hque : ∀ j, queuedFor sets (consume sets s p) j = queuedFor sets s j := by simp [consume,hp,queuedFor]
    constructor
    · intro j f hj
      rw [hfun] at hj
      obtain ⟨hc,hq⟩ := h.registered j f hj
      refine ⟨?_,by rw [hque,hq]⟩
      rw [hcal,harr,hc]
      by_cases hpj : p.id=j
      · have : g=f := by rw [hpj,hj] at hp; simpa using hp.symm
        simp [hpj,this]
      · simp [hpj]
    · intro j hj
      rw [hfun] at hj
      have hpj : p.id≠j := by
        intro heq
        rw [heq,hj] at hp
        simp at hp
      simpa [hcal,harr,hque,hpj] using h.unregistered j hj
  | none =>
    have hcal : ∀ j, callsFor (consume sets s p) j = callsFor s j := by simp [consume,hp,callsFor]
    have hque : ∀ j, queuedFor sets (consume sets s p) j = queuedFor sets s j ++ if p.id=j then [p] else [] := by
      intro j
      by_cases hj : p.id=j
      · subst hj
        simp [consume,hp,queuedFor]
      · by_cases hk : j/sets.setSize=p.id/sets.setSize
        · simp [consume,hp,queuedFor,hk,hj]
        · simp [consume,hp,queuedFor,hk,hj]
    constructor
    · intro j f hj
      rw [hfun] at hj
      have hpj : p.id≠j := by
        intro heq
        rw [heq,hj] at hp
        simp at hp
      simpa [hcal,harr,hque,hpj] using h.registered j f hj
    · intro j hj
      rw [hfun] at hj
      obtain ⟨hc,hq⟩ := h.unregistered j hj
      exact ⟨by rw [hcal,hc],by rw [hque,harr,hq]⟩

section

variable (hp : Placed sets s) (hd : Delivered sets s) {set : ℕ}
include hp hd

theorem queued_unregistered {k : ℕ} {p : UnexpectedPacket π} (hmem : p ∈ s.ueQ k) :
    s.function p.id = none := by
  cases hf : s.function p.id with
  | none => rfl
  | some g =>
    have hemp := (hd.registered p.id g hf).2
    have : p ∈ queuedFor sets s p.id := by simpa [queuedFor,hp.home k p hmem] using hmem
    rw [hemp] at this
    simp at this

theorem drain_registerAt (set : ℕ) : drain (update s.function id (some f)) (s.ueQ set) =
      (((s.ueQ set).takeWhile fun p => p.id=id).map (f, ·), (s.ueQ set).dropWhile fun p => p.id=id) := by
  apply drain_eq (by simp)
  intro p hmem hne
  simpa [hne] using queued_unregistered hp hd hmem

theorem registerAt_placed (set : ℕ) : Placed sets (registerAt s set id f) := by
  refine ⟨fun k p hmem => ?_,hp.system⟩
  simp only [registerAt,drain_registerAt hp hd set] at hmem
  by_cases hk : k=set
  · subst hk
    exact hp.home k p ((dropWhile_sublist _).subset (by simpa using hmem))
  · exact hp.home k p (by simpa [hk] using hmem)

theorem registerAt_delivered_iff (hid : s.function id = none) (hset : id/sets.setSize=set) :
    Delivered sets (registerAt s set id f) ↔ ∀ p ∈ (s.ueQ set).dropWhile (fun p => p.id=id), p.id≠id := by
  subst hset
  have hiff := hd.register_iff hid (registerAt s (id/sets.setSize) id f) f
    ((s.ueQ (id/sets.setSize)).takeWhile fun p => p.id=id)
    (((s.ueQ (id/sets.setSize)).dropWhile fun p => p.id=id).filter fun p => p.id=id)
    rfl rfl ?_ ?_ ?_
  · rw [hiff,filter_eq_nil_iff]
    simp
  · intro j
    have hcal : callsFor (registerAt s (id/sets.setSize) id f) j = callsFor s j ++
        (((s.ueQ (id/sets.setSize)).takeWhile fun p => p.id=id).filter fun p => p.id=j).map (f, ·) := by
      simp [callsFor,registerAt,drain_registerAt hp hd,List.filter_map,comp_def]
    by_cases hj : j=id
    · subst hj
      rw [hcal,(hd.unregistered j hid).1,filter_takeWhile_same,if_pos rfl,nil_append]
    · rw [hcal,filter_takeWhile_other hj,if_neg hj,map_nil,append_nil]
  · intro j
    simp only [queuedFor,registerAt,drain_registerAt hp hd]
    by_cases hj : j=id
    · simp [hj]
    · by_cases hk : j/sets.setSize=id/sets.setSize
      · rw [if_neg hj,hk,update_self,filter_dropWhile_other hj]
      · simp [hj,hk]
  · rw [queuedFor,filter_split (s.ueQ (id/sets.setSize)) id id,filter_takeWhile_same]

theorem registerAt_other_delivered_iff (hid : s.function id = none) (hset : id/sets.setSize≠set) :
    Delivered sets (registerAt s set id f) ↔ queuedFor sets s id = [] := by
  have hne : ∀ p ∈ s.ueQ set, p.id≠id := by
    intro p hmem heq
    exact hset (heq ▸ hp.home set p hmem)
  have hstay : drain (update s.function id (some f)) (s.ueQ set)=([], s.ueQ set) := by
    rw [drain_registerAt hp hd]
    cases hq : s.ueQ set with
    | nil => rfl
    | cons p q => simp [hne p (by simp [hq])]
  apply hd.register_iff hid (registerAt s set id f) f [] (queuedFor sets s id) rfl rfl
  · intro j
    by_cases hj : j=id
    · subst hj
      simpa [callsFor,registerAt,hstay] using (hd.unregistered j hid).1
    · simp [callsFor,registerAt,hstay,hj]
  · intro j
    have : (registerAt s set id f).ueQ=s.ueQ := by simp [registerAt,hstay]
    by_cases hj : j=id <;> simp [queuedFor,this,hj]
  · rfl

omit hp hd in
theorem registerSystemDispatch_eq (hp : Placed sets s)
    (hla : lastFree s.function (sets.setSize*sets.setCount-1) = some id) :
    registerSystemDispatch sets s f = some (some id, { s with function := update s.function id (some f) }) := by
  simp [registerSystemDispatch,hla,hp.system,drainSystem]

omit hp hd in
theorem registerSystem_delivered_iff (hd : Delivered sets s) (hid : s.function id = none) :
    Delivered sets { s with function := update s.function id (some f) } ↔ queuedFor sets s id = [] := by
  apply hd.register_iff hid { s with function := update s.function id (some f) } f []
    (queuedFor sets s id) rfl rfl
  · intro j
    by_cases hj : j=id
    · subst hj
      simpa [callsFor] using (hd.unregistered j hid).1
    · simp [callsFor,hj]
  · intro j
    by_cases hj : j=id <;> simp [queuedFor,hj]
  · simp

omit hp hd in
theorem registerUserDispatch_cases (s : Dispatch φ π) (hset : set < sets.setCount) (f : φ) :
    (∃ id, FirstFree s.function (set*sets.setSize) (set*sets.setSize+sets.setSize) id ∧
      registerUserDispatch sets s set f = some (some id, registerAt s set id f)) ∨
    (∀ j, set*sets.setSize≤j → j < set*sets.setSize+sets.setSize → s.function j ≠ none) ∧
      (set*sets.setSize+sets.setSize<65536 ∧ registerUserDispatch sets s set f = some (none, s) ∨
        set*sets.setSize+sets.setSize=65536 ∧ ((∃ id, FirstFree s.function 0 65536 id ∧
            registerUserDispatch sets s set f = some (some id, registerAt s set id f)) ∨
          (∀ j<65536, s.function j ≠ none) ∧ registerUserDispatch sets s set f = none)) := by
  have hn : set*sets.setSize+sets.setSize≤65536 := by
    have := Nat.mul_le_mul_right sets.setSize (Nat.succ_le_of_lt hset)
    have := sets.table_le
    rw [Nat.succ_mul] at *
    omega
  have hpos := sets.setSize_pos
  have hso : ∀ id, nextFree s.function (set*sets.setSize+sets.setSize) 131073
      (set*sets.setSize) = some (some id) →
        registerUserDispatch sets s set f = some (some id, registerAt s set id f) := by
    intro id hid
    simp [registerUserDispatch,Nat.not_le_of_lt hset,hid]
  have hnn : nextFree s.function (set*sets.setSize+sets.setSize) 131073
      (set*sets.setSize) = some none → registerUserDispatch sets s set f = some (none, s) := by
    intro hid
    simp [registerUserDispatch,Nat.not_le_of_lt hset,hid]
  obtain ⟨id,hfr⟩ | hfull := firstFree_or_full s.function (set*sets.setSize) (set*sets.setSize+sets.setSize)
  · exact Or.inl ⟨id,hfr,hso id (nextFree_found hn hfr (by omega))⟩
  refine Or.inr ⟨hfull,?_⟩
  obtain hlt | heq := Nat.lt_or_eq_of_le hn
  · exact Or.inl ⟨hlt,hnn (nextFree_full hlt (by omega) hfull (by omega))⟩
  refine Or.inr ⟨heq,?_⟩
  have hwrap : ∃ fuel, 65536<fuel ∧
      nextFree s.function (set*sets.setSize+sets.setSize) 131073 (set*sets.setSize) =
        nextFree s.function 65536 fuel 0 := by
    rw [heq] at hfull ⊢
    refine ⟨131073-1-(65535-set*sets.setSize),by omega,?_⟩
    rw [← nextFree_wrap (a := set*sets.setSize) (by omega) hfull]
    congr 1
    omega
  obtain ⟨fuel,hfuel,hwrap⟩ := hwrap
  obtain ⟨id,hfr⟩ | hall := firstFree_or_full s.function 0 65536
  · exact Or.inl ⟨id,hfr,hso id (hwrap.trans (nextFree_found le_rfl hfr (by omega)))⟩
  · have hall' : ∀ j<65536, s.function j≠none := fun j hj => hall j (Nat.zero_le j) hj
    have hspin := hwrap.trans (nextFree_spins hall' fuel 0 (by omega))
    exact Or.inr ⟨hall',by simp [registerUserDispatch,Nat.not_le_of_lt hset,hspin]⟩

theorem step_placed {e : DispatchEvent φ π} (hs : step sets s e = some s') : Placed sets s' := by
  cases e with
  | packet p =>
    obtain ⟨_,rfl⟩ : p.id < sets.setCount*sets.setSize ∧ consume sets s p=s' := by simpa [step] using hs
    exact consume_placed hp p
  | registerUserDispatch set f =>
    by_cases hset : set < sets.setCount
    · obtain ⟨id,_,hcall⟩ | ⟨_,⟨_,hcall⟩ | ⟨_,⟨id,_,hcall⟩ | ⟨_,hcall⟩⟩⟩ := registerUserDispatch_cases s hset f
      · obtain rfl : registerAt s set id f=s' := by simpa [step,hcall] using hs
        exact registerAt_placed hp hd set
      · obtain rfl : s=s' := by simpa [step,hcall] using hs
        exact hp
      · obtain rfl : registerAt s set id f=s' := by simpa [step,hcall] using hs
        exact registerAt_placed hp hd set
      · simp [step,hcall] at hs
    · obtain rfl : s=s' := by simpa [step,registerUserDispatch,Nat.le_of_not_lt hset] using hs
      exact hp
  | registerSystemDispatch f =>
    cases hla : lastFree s.function (sets.setSize*sets.setCount-1) with
    | none =>
      obtain rfl : s=s' := by simpa [step,registerSystemDispatch,hla] using hs
      exact hp
    | some id =>
      rw [step,registerSystemDispatch_eq hp hla] at hs
      obtain rfl := some.inj hs
      exact ⟨hp.home,hp.system⟩

theorem registerUser_clean_iff (hset : set < sets.setCount) : Clean sets s (.registerUserDispatch set f) ↔
      ∃ s', step sets s (.registerUserDispatch set f) = some s' ∧ Delivered sets s' := by
  simp only [Clean,hset,true_imp_iff]
  obtain ⟨id,hfr,hcall⟩ | ⟨hfull,hlate⟩ := registerUserDispatch_cases s hset f
  · have ⟨ha,hn,hnn,_⟩ := hfr
    have hhome : id/sets.setSize=set := by
      apply Nat.div_eq_of_lt_le ha
      rw [Nat.succ_mul]
      exact hn
    have hwrap : ¬ ((∀ j, set*sets.setSize≤j → j<65536 → s.function j≠none)) ∨
        set*sets.setSize+sets.setSize≠65536 := by
      by_cases heq : set*sets.setSize+sets.setSize=65536
      · exact Or.inl fun hall => hall id ha (heq ▸ hn) hnn
      · exact Or.inr heq
    simp only [step,hcall,map_some,some_inj,exists_eq_left',registerAt_delivered_iff hp hd hnn hhome]
    constructor
    · intro ⟨hcle,_⟩
      exact hcle id hfr
    · intro hcle
      refine ⟨fun id' hfr' => hfr.unique hfr' ▸ hcle,fun heq hall => ?_⟩
      tauto
  · have hnof : ∀ id, ¬ FirstFree s.function (set*sets.setSize) (set*sets.setSize+sets.setSize) id :=
      fun id hfr => hfull id hfr.1 hfr.2.1 hfr.2.2.1
    obtain ⟨hlt,hcall⟩ | ⟨heq,⟨id,hfr,hcall⟩ | ⟨hall,hcall⟩⟩ := hlate
    · simp [step,hcall,hd,hnof,Nat.ne_of_lt hlt]
    · have hoth : id/sets.setSize≠set := by
        intro hhome
        have hle : set*sets.setSize ≤ id := hhome ▸ Nat.div_mul_le_self id sets.setSize
        exact hfull id hle (heq ▸ hfr.2.1) hfr.2.2.1
      rw [heq] at hfull hnof
      simp only [step,hcall,map_some,some_inj,exists_eq_left',heq,
        registerAt_other_delivered_iff hp hd hfr.2.2.1 hoth,true_imp_iff]
      constructor
      · intro ⟨_,hcle⟩
        obtain ⟨id',hfr',hque⟩ := hcle hfull
        exact hfr.unique hfr' ▸ hque
      · exact fun hque => ⟨fun id hfr => absurd hfr (hnof id),fun _ => ⟨id,hfr,hque⟩⟩
    · rw [heq] at hfull hnof
      have hnn : ¬ ∃ id, FirstFree s.function 0 65536 id ∧ queuedFor sets s id = [] :=
        fun ⟨id,hfr,_⟩ => hall id hfr.2.1 hfr.2.2.1
      simp only [step,hcall,heq,hnn,map_none,reduceCtorEq,false_and,exists_false,iff_false,true_imp_iff]
      exact fun hcle => hcle.2 hfull

theorem clean_iff (e : DispatchEvent φ π) :
    Clean sets s e ↔ ∃ s', step sets s e = some s' ∧ Delivered sets s' := by
  cases e with
  | packet p => simp [Clean,step,consume_delivered hd p]
  | registerUserDispatch set f =>
    by_cases hset : set < sets.setCount
    · exact registerUser_clean_iff hp hd hset
    · simp [Clean,step,registerUserDispatch,hset,Nat.le_of_not_lt hset,hd]
  | registerSystemDispatch f =>
    cases hla : lastFree s.function (sets.setSize*sets.setCount-1) with
    | none =>
      have hnof : ∀ id, ¬ LastFree s.function (sets.setSize*sets.setCount-1) id :=
        fun id hfr => lastFree_eq_none hla hfr.1 hfr.2.1 hfr.2.2.1
      simp [Clean,step,registerSystemDispatch,hla,hnof,hd]
    | some id =>
      have hfr := lastFree_eq_some hla
      simp only [Clean,step,registerSystemDispatch_eq hp hla,map_some,some_inj,
        exists_eq_left',registerSystem_delivered_iff hd hfr.2.2.1]
      constructor
      · exact fun hcle => hcle id hfr
      · exact fun hque id' hfr' => hfr.unique hfr' ▸ hque

end

/-- In every run whose steps are clean the packets of each registered id were delivered to its
function, all of them and in order; a step returns and keeps this exactly if it is clean. -/
theorem packets_delivered (h : Run (step sets) (Clean sets) initial s) :
    Delivered sets s ∧ Placed sets s ∧ ∀ e, Clean sets s e ↔ ∃ s', step sets s e = some s' ∧ Delivered sets s' := by
  have hkp : Placed sets s ∧ Delivered sets s := by
    refine h.invariant (P := fun s => Placed sets s ∧ Delivered sets s)
      ⟨initial_placed,initial_delivered⟩ ?_
    intro s e s' ⟨hp,hd⟩ hcle hs
    obtain ⟨s1,hs1,hd1⟩ := (clean_iff hp hd e).mp hcle
    obtain rfl : s1=s' := by simpa [hs1] using hs
    exact ⟨step_placed hp hd hs,hd1⟩
  exact ⟨hkp.2,hkp.1,clean_iff hkp.1 hkp.2⟩

/-- Four sets of eight ids, the size of the sets of the device. -/
def fourSets : DispatchSets := ⟨4, 8, by decide, by decide, by decide⟩

/-- Two packets of id 0 and one of id 1. -/
def threePackets : Dispatch ℕ ℕ := consume fourSets (consume fourSets (consume fourSets initial ⟨0, 20⟩) ⟨0, 21⟩) ⟨1, 10⟩

theorem threePackets_clean : Clean fourSets threePackets (.registerUserDispatch 0 7) := by
  intro _
  refine ⟨fun id hfr => ?_,fun h => absurd h (by decide)⟩
  have hzr : FirstFree threePackets.function (0 * fourSets.setSize) (0 * fourSets.setSize + fourSets.setSize) 0 :=
    ⟨by decide,by decide,rfl,fun j _ hlt => absurd hlt (Nat.not_lt_zero j)⟩
  obtain rfl := hfr.unique hzr
  decide

/-- After the registration of id 0 one more packet comes for each id. -/
theorem packets_delivered_registered : ∃ s : Dispatch ℕ ℕ, execEvents (step fourSets)
      [.packet ⟨0, 20⟩, .packet ⟨0, 21⟩, .packet ⟨1, 10⟩, .registerUserDispatch 0 7, .packet ⟨1, 11⟩,
        .packet ⟨0, 30⟩] initial = some s ∧
    callsFor s 0 = [(7, ⟨0, 20⟩), (7, ⟨0, 21⟩), (7, ⟨0, 30⟩)] ∧ Delivered fourSets s := by
  have hpkt : ∀ (s : Dispatch ℕ ℕ) n, Clean fourSets s (.packet ⟨0,n⟩) ∧ Clean fourSets s (.packet ⟨1,n⟩) :=
    fun _ _ => ⟨show 0<4 * 8 by decide,show 1 < 4 * 8 by decide⟩
  have hthree : Run (step fourSets) (Clean fourSets) initial threePackets :=
    ((Run.refl.step (hpkt _ 20).1 rfl).step (hpkt _ 21).1 rfl).step (hpkt _ 10).2 rfl
  have hrun := ((hthree.step threePackets_clean rfl).step (hpkt _ 11).2 rfl).step (hpkt _ 30).1 rfl
  exact ⟨_,rfl,by decide,(packets_delivered hrun).1⟩

/-- The first packet of id 0 waits behind one of id 1, so that the second one overtakes it. -/
theorem packet_overtaken :
    ∃ s : Dispatch ℕ ℕ, execEvents (step fourSets)
        [.packet ⟨1, 10⟩, .packet ⟨0, 20⟩, .registerUserDispatch 0 7, .packet ⟨0, 30⟩,
          .registerUserDispatch 0 8] initial = some s ∧
      s.function 0 = some 7 ∧ arrivedFor s 0 = [⟨0, 20⟩, ⟨0, 30⟩] ∧
      callsFor s 0 = [(7, ⟨0, 30⟩), (7, ⟨0, 20⟩)] :=
  ⟨_,rfl,by decide,by decide,by decide⟩

end Delivery

end PAMI.Shmem.Dispatch
