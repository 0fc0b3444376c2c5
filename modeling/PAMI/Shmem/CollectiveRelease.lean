import PAMI.Shmem.CollectiveFifo

namespace PAMI.Shmem

open PAMI.Math LocalProcesses CollectiveFifo Option Finset

variable {n : ℕ} {master : ℕ → Fin n} {consumers : ℕ → Finset (Fin n)}
variable {s s' : LocalProcesses n} {p q : Fin n} {c c' : ℕ}

namespace CollectiveInvariant

section

variable (h : CollectiveInvariant master consumers s)
include h

theorem held_eq (hold : (s.fifo p).Holds c) (hold' : (s.fifo p).Holds c')
    (hsl : c'%descriptorFifoSize=c%descriptorFifoSize) : c'=c := by
  have hta := (h.process p).tailEnd
  have hend := (h.process p).fifoEnd
  obtain ⟨hhe,hlt⟩ := hold
  obtain ⟨hhe',hlt'⟩ := hold'
  exact slot_eq hsl (by omega) (by omega)

omit h in
theorem published_eq (hseq : (s.regionOf c).seqNum=c) (hseq' : (s.regionOf c').seqNum=c')
    (hsl : c'%descriptorFifoSize=c%descriptorFifoSize) : c'=c := by
  rw [← hseq,← hseq',regionOf_congr s hsl]

theorem setDone (hr : (s.fifo p).resetting=false) (hold : (s.fifo p).Holds c)
    (hstt : ((s.fifo p).descriptor c).myState = .init)
    (hsgn : p ∈ consumers c → s.signalled p c = true) :
    CollectiveInvariant master consumers (s.setDone p c) := by
  have hp := h.process p
  have hne : ((s.fifo p).descriptor c).myState ≠ .free := hstt.trans_ne (by decide)
  have hseq := hp.mySeqNum c hold.1 (hold.2.trans_le (hp.fifoEnd ▸ hp.tailEnd))
  refine h.setFifo (hp.setDescriptor hr hold hseq (hp.agreed c hold hne) fun _ => hsgn) rfl rfl
    (h.published p) fun c' hpc hold' hne' hrou => ?_
  subst hpc
  refine h.numConsumers c' hold' ?_ hrou
  by_cases hsl : c'%descriptorFifoSize=c%descriptorFifoSize
  · obtain rfl := h.held_eq hold hold' hsl
    exact hne
  · rwa [descriptor_setDescriptor_of_ne hsl] at hne'

theorem setConsumers (hold : (s.fifo (master c)).Holds c) : CollectiveInvariant master consumers
      (s.setRegion c { s.regionOf c with numConsumers := (consumers c).card }) := by
  have hseq : ∀ c', ((s.setRegion c { s.regionOf c with numConsumers := (consumers c).card }).regionOf
      c').seqNum=(s.regionOf c').seqNum := fun c' => seqNum_setRegion rfl
  refine ⟨h.process,fun c' => ?_,fun q c' hc => ?_,fun c' => ?_,fun c' hc => ?_,h.resetting,
    fun c' hold' hne hrou => ?_,fun c' hc => ?_⟩
  · rw [hseq]
    exact h.slot c'
  · rw [hseq]
    exact h.published q c' hc
  · rw [hseq]
    exact h.masterHead c'
  · rw [hseq] at hc
    exact h.passed c' hc
  · by_cases hsl : c'%descriptorFifoSize=c%descriptorFifoSize
    · obtain rfl := published_eq (h.current_master hold) (h.current_master hold') hsl
      rw [regionOf_setRegion rfl]
    · rw [regionOf_setRegion_of_ne hsl]
      exact h.numConsumers c' hold' hne hrou
  · rw [hseq] at hc
    by_cases hsl : c'%descriptorFifoSize=c%descriptorFifoSize
    · rw [regionOf_setRegion hsl,← regionOf_congr s hsl]
      exact h.doneCounter c' hc
    · rw [regionOf_setRegion_of_ne hsl]
      exact h.doneCounter c' hc

theorem setMaster (hr : (s.fifo p).resetting=false) (hold : (s.fifo p).Holds c) :
    CollectiveInvariant master consumers (s.setMaster master consumers p c) := by
  have hp := h.process p
  have hseq := hp.mySeqNum c hold.1 (hold.2.trans_le (hp.fifoEnd ▸ hp.tailEnd))
  have hpro : ProcessInvariant master consumers p ((s.fifo p).setDescriptor c
      { (s.fifo p).descriptor c with master := master c, myState := .init }) (s.signalled p) :=
    hp.setDescriptor hr hold hseq rfl (by simp)
  simp only [LocalProcesses.setMaster]
  split
  case isTrue hmas =>
    have hs := h.setConsumers (hmas ▸ hold)
    refine hs.setFifo (p := p) hpro rfl rfl (hs.published p) fun c' hpc hold' hne hrou => ?_
    by_cases hsl : c'%descriptorFifoSize=c%descriptorFifoSize
    · obtain rfl := h.held_eq hold hold' hsl
      rw [regionOf_setRegion rfl]
    · rw [descriptor_setDescriptor_of_ne hsl] at hne
      subst hpc
      exact hs.numConsumers c' hold' hne hrou
  case isFalse hmas =>
    refine h.setFifo hpro rfl rfl (h.published p) fun c' hpc hold' hne hrou => ?_
    by_cases hsl : c'%descriptorFifoSize=c%descriptorFifoSize
    · obtain rfl := h.held_eq hold hold' hsl
      exact absurd hpc hmas
    · rw [descriptor_setDescriptor_of_ne hsl] at hne
      subst hpc
      exact h.numConsumers c' hold' hne hrou

omit h in
theorem signalled_signalDone : (s.signalDone p c).signalled q c' = true ↔
    s.signalled q c' = true ∨ q=p ∧ c'=c := by
  obtain rfl | hq := eq_or_ne q p
  · obtain rfl | hc := eq_or_ne c' c
    · simp [LocalProcesses.signalDone]
    · simp [LocalProcesses.signalDone,hc]
  · simp [LocalProcesses.signalDone,hq]

omit h in
theorem doneConsumers_signalDone (hp : p ∈ consumers c) :
    doneConsumers consumers (s.signalDone p c) c = insert p (doneConsumers consumers s c) := by
  ext q
  simp only [doneConsumers,Finset.mem_filter,mem_insert,signalled_signalDone,and_true]
  constructor
  · intro hmem
    obtain ⟨hq,hs⟩ := hmem
    exact hs.elim (fun hs => .inr ⟨hq,hs⟩) .inl
  · intro hq
    obtain rfl | ⟨hq,hs⟩ := hq
    · exact ⟨hp,.inr rfl⟩
    · exact ⟨hq,.inl hs⟩

omit h in
theorem doneConsumers_signalDone_of_ne (hc : c'≠c) :
    doneConsumers consumers (s.signalDone p c) c' = doneConsumers consumers s c' := by
  simp [doneConsumers,signalled_signalDone,hc]

theorem signalDone (hold : (s.fifo p).Holds c) (hp : p ∈ consumers c) (hs : s.signalled p c = false) :
    CollectiveInvariant master consumers (s.signalDone p c) := by
  have hcur : (s.regionOf c).seqNum=c := h.current hold hp (by simp [hs])
  have hrou : ¬ ((s.fifo (master c)).resetting=true ∧ (s.fifo (master c)).head=c) := by
    intro ⟨hres,hhe⟩
    have hall := h.resetting (master c) hres
    rw [hhe] at hall
    simp [hall p hp] at hs
  have hseq : ∀ c', ((s.signalDone p c).regionOf c').seqNum=(s.regionOf c').seqNum := fun c' =>
    seqNum_setRegion (r := { s.regionOf c with
      doneCounter := (s.regionOf c).doneCounter+1 }) rfl
  have hkeep : ∀ q c', s.signalled q c'=true → (s.signalDone p c).signalled q c'=true :=
    fun q c' h => signalled_signalDone.mpr (.inl h)
  refine ⟨fun q => ?_,fun c' => ?_,fun q c' hc => ?_,fun c' => ?_,fun c' hc q hq => ?_,
    fun r hr q hq => hkeep q _ (h.resetting r hr q hq),fun c' hold' hne hrou' => ?_,fun c' hc => ?_⟩
  · have hpro := h.process q
    obtain rfl | hq := eq_or_ne q p
    · simpa [LocalProcesses.signalDone] using hpro.signal hold
    · simpa [LocalProcesses.signalDone,hq] using hpro
  · rw [hseq]
    exact h.slot c'
  · rw [hseq]
    exact h.published q c' hc
  · rw [hseq]
    exact h.masterHead c'
  · rw [hseq] at hc
    exact hkeep q c' (h.passed c' hc q hq)
  · have hsm : ((s.signalDone p c).regionOf c').numConsumers=(s.regionOf c').numConsumers := by
      by_cases hsl : c'%descriptorFifoSize=c%descriptorFifoSize
      · exact (congrArg ShmemRegion.numConsumers (regionOf_setRegion hsl)).trans
          (by rw [regionOf_congr s hsl])
      · exact congrArg ShmemRegion.numConsumers (regionOf_setRegion_of_ne hsl)
    rw [hsm]
    exact h.numConsumers c' hold' hne hrou'
  · rw [hseq] at hc
    by_cases hsl : c'%descriptorFifoSize=c%descriptorFifoSize
    · obtain rfl := published_eq hcur hc hsl
      have hold := h.doneCounter c' hc
      rw [if_neg hrou] at hold
      have hnew : ((s.signalDone p c').regionOf c').doneCounter=(s.regionOf c').doneCounter+1 := by
        have hset := regionOf_setRegion (s := s) (c := c')
          (r := { s.regionOf c' with doneCounter := (s.regionOf c').doneCounter+1 }) rfl
        exact congrArg ShmemRegion.doneCounter hset
      have hnot : p ∉ doneConsumers consumers s c' := by simp [doneConsumers,hs]
      rw [hnew,hold,doneConsumers_signalDone hp,card_insert_of_notMem hnot]
      exact (if_neg hrou).symm
    · have hsm : (s.signalDone p c).regionOf c' = s.regionOf c' := regionOf_setRegion_of_ne hsl
      have hne : c'≠c := fun heq => hsl (heq ▸ rfl)
      rw [hsm,doneConsumers_signalDone_of_ne hne]
      exact h.doneCounter c' hc

end

end CollectiveInvariant

variable {n : ℕ} {master : ℕ → Fin n} {consumers : ℕ → Finset (Fin n)}
variable {s s' : LocalProcesses n} {p q : Fin n} {c c' : ℕ}

namespace CollectiveInvariant

section

variable (h : CollectiveInvariant master consumers s) (hr : (s.fifo p).resetting = false)
  (hta : (s.fifo p).head < (s.fifo p).tail)
  (hdn : ((s.fifo p).descriptor (s.fifo p).head).myState = .done)
include h hr hta hdn

theorem reset (hmas : ((s.fifo p).descriptor (s.fifo p).head).master=p)
    (huse : (s.regionOf (s.fifo p).head).inUse=false) :
    CollectiveInvariant master consumers ((s.setRegion (s.fifo p).head
      ((s.regionOf (s.fifo p).head).reset n)).setFifo p { s.fifo p with resetting := true }) := by
  have hp := h.process p
  obtain ⟨c,hc⟩ : ∃ c, c=(s.fifo p).head := ⟨_,rfl⟩
  rw [← hc] at hta hdn hmas huse ⊢
  have hne : ((s.fifo p).descriptor c).myState ≠ .free := hdn.trans_ne (by decide)
  have hold : (s.fifo p).Holds c := ⟨hc.ge,hta⟩
  have hpc : p=master c := Fin.ext (hmas.symm.trans (hp.agreed c hold hne))
  have hcur : (s.regionOf c).seqNum=c := h.current_master (hpc ▸ hold)
  have hrou : ¬ ((s.fifo (master c)).resetting=true ∧ (s.fifo (master c)).head=c) := by
    rw [← hpc,hr]
    simp
  have hall : ∀ q ∈ consumers c, s.signalled q c=true := by
    have hnum := h.numConsumers c (hpc ▸ hold) (hpc ▸ hne) hrou
    have hcou := h.doneCounter c hcur
    rw [if_neg hrou] at hcou
    have hcard : (consumers c).card≤(doneConsumers consumers s c).card := by
      rw [← hcou,← hnum]
      simp [ShmemRegion.inUse] at huse
      exact huse.ge
    intro q hq
    have heq := eq_of_subset_of_card_le (Finset.filter_subset _ _) hcard
    rw [← heq] at hq
    exact (Finset.mem_filter.mp hq).2
  have hseq : ∀ c', ((s.setRegion c ((s.regionOf c).reset n)).regionOf c').seqNum =
      (s.regionOf c').seqNum := fun c' => seqNum_setRegion rfl
  have hfifo : ∀ q, q≠p → ((s.setRegion c ((s.regionOf c).reset n)).setFifo p
      { s.fifo p with resetting := true }).fifo q = s.fifo q := fun q => fifo_setFifo_of_ne
  have hkp {β : Sort 1} (g : CollectiveFifo → β) (hg : g { s.fifo p with resetting := true } = g (s.fifo p)) (q) :=
    congr_setFifo (s := s.setRegion c ((s.regionOf c).reset n)) (q := q) g hg
  refine ⟨fun q => ?_,fun c' => ?_,fun q c' hc' => ?_,fun c' => ?_,fun c' hc' => ?_,fun q hres => ?_,
    fun c' hold' hne' hrou' => ?_,fun c' hc' => ?_⟩
  · obtain rfl | hq := eq_or_ne q p
    · rw [fifo_setFifo]
      exact ⟨hp.headTail,hp.tailEnd,hp.fifoEnd,hp.mySeqNum,hp.unused,hp.fetched,hp.released,hp.done,
        hp.agreed,fun _ => hc ▸ ⟨hta,hdn,hpc⟩⟩
    · rw [hfifo q hq]
      exact h.process q
  · exact (congrArg (· % descriptorFifoSize) (hseq c')).trans (h.slot c')
  · rw [hkp CollectiveFifo.tail rfl] at hc'
    rw [regionOf_setFifo,hseq]
    exact h.published q c' hc'
  · rw [hkp CollectiveFifo.head rfl,regionOf_setFifo,hseq]
    exact h.masterHead c'
  · rw [regionOf_setFifo,hseq] at hc'
    exact h.passed c' hc'
  · obtain rfl | hq := eq_or_ne q p
    · rw [fifo_setFifo]
      exact hc ▸ hall
    · rw [hfifo q hq] at hres ⊢
      exact h.resetting q hres
  · have hold' : (s.fifo (master c')).Holds c' := (hkp (fun f => f.Holds c') rfl _).mp hold'
    have hne' := (hkp (fun f => (f.descriptor c').myState ≠ .free) rfl _).mp hne'
    have hsl : c'%descriptorFifoSize≠c%descriptorFifoSize := by
      intro hsl
      obtain rfl := published_eq hcur (h.current_master hold') hsl
      rw [← hpc,fifo_setFifo] at hrou'
      exact hrou' ⟨rfl,hc.symm⟩
    rw [regionOf_setFifo,regionOf_setRegion_of_ne hsl]
    refine h.numConsumers c' hold' hne' ?_
    obtain hq | hq := eq_or_ne (master c') p
    · rw [hq,hr]
      simp
    · rwa [hfifo _ hq] at hrou'
  · rw [regionOf_setFifo,hseq] at hc'
    rw [regionOf_setFifo]
    by_cases hsl : c'%descriptorFifoSize=c%descriptorFifoSize
    · obtain rfl := published_eq hcur hc' hsl
      rw [regionOf_setRegion rfl,← hpc,fifo_setFifo,if_pos ⟨rfl,hc.symm⟩]
      rfl
    · rw [regionOf_setRegion_of_ne hsl,h.doneCounter c' hc']
      obtain hq | hq := eq_or_ne (master c') p
      · rw [hq,fifo_setFifo,hr,if_neg (by simp),if_neg]
        · rfl
        · intro ⟨_,hhe⟩
          exact hsl (by rw [hc,← hhe])
      · rw [hfifo _ hq]
        rfl

omit h hr hta hdn in
theorem held_of_releaseHead (h : CollectiveInvariant master consumers s)
    (hta : (s.fifo p).head<(s.fifo p).tail) (hold : (s.fifo p).releaseHead.Holds c) :
    (s.fifo p).Holds c ∧ c%descriptorFifoSize≠(s.fifo p).head%descriptorFifoSize ∧
      (s.fifo p).releaseHead.descriptor c = (s.fifo p).descriptor c := by
  have hold' : (s.fifo p).Holds c := ⟨Nat.le_of_succ_le hold.1,hold.2⟩
  have hsl : c%descriptorFifoSize≠(s.fifo p).head%descriptorFifoSize := by
    intro hsl
    have heq := h.held_eq ⟨le_rfl,hta⟩ hold' hsl
    exact absurd (heq ▸ hold.1) (Nat.not_succ_le_self _)
  exact ⟨hold',hsl,descriptor_setDescriptor_of_ne hsl⟩

theorem releaseHead (hmas : master (s.fifo p).head ≠ p) :
    CollectiveInvariant master consumers (s.setFifo p (s.fifo p).releaseHead) := by
  have hfifo : ∀ q, q≠p → (s.setFifo p (s.fifo p).releaseHead).fifo q = s.fifo q := fun q => fifo_setFifo_of_ne
  refine ⟨fun q => ?_,h.slot,fun q c hc => ?_,fun c => ?_,h.passed,fun q hres => ?_,
    fun c hold hne hrou => ?_,fun c hc => ?_⟩
  · obtain rfl | hq := eq_or_ne q p
    · simpa using (h.process q).releaseHead hta hdn
    · simpa [hfifo q hq] using h.process q
  · obtain rfl | hq := eq_or_ne q p
    · rw [fifo_setFifo] at hc
      exact h.published q c hc
    · rw [hfifo q hq] at hc
      exact h.published q c hc
  · have hiff := h.masterHead c
    obtain hq | hq := eq_or_ne (master c) p
    · have hne : (s.fifo p).head≠c := fun heq => hmas (heq ▸ hq)
      rw [hq] at hiff
      rw [hq,fifo_setFifo,regionOf_setFifo,hiff]
      simp only [CollectiveFifo.releaseHead]
      omega
    · rw [hfifo _ hq]
      exact hiff
  · obtain rfl | hq := eq_or_ne q p
    · simp [CollectiveFifo.releaseHead] at hres
    · rw [hfifo q hq] at hres ⊢
      exact h.resetting q hres
  · obtain hq | hq := eq_or_ne (master c) p
    · rw [hq,fifo_setFifo] at hold hne
      obtain ⟨hold,-,hd⟩ := h.held_of_releaseHead hta hold
      rw [hd] at hne
      exact h.numConsumers c (hq ▸ hold) (hq ▸ hne) (by simp [hq,hr])
    · rw [hfifo _ hq] at hold hne hrou
      exact h.numConsumers c hold hne hrou
  · obtain hq | hq := eq_or_ne (master c) p
    · have hcou := h.doneCounter c hc
      rw [hq,if_neg (by simp [hr])] at hcou
      rw [hq,fifo_setFifo,if_neg (by simp [CollectiveFifo.releaseHead])]
      exact hcou
    · rw [hfifo _ hq]
      exact h.doneCounter c hc

end

theorem publish (h : CollectiveInvariant master consumers s) (hr : (s.fifo p).resetting=true) :
    CollectiveInvariant master consumers ((s.setRegion (s.fifo p).head
      { s.regionOf (s.fifo p).head with
        seqNum := (s.regionOf (s.fifo p).head).seqNum+descriptorFifoSize }).setFifo p
      (s.fifo p).releaseHead) := by
  obtain ⟨hta,hdn,hpc⟩ := (h.process p).resetting hr
  have hall := h.resetting p hr
  obtain ⟨c,hc⟩ : ∃ c, c=(s.fifo p).head := ⟨_,rfl⟩
  have hold : (s.fifo p).Holds c := ⟨hc.ge,hc ▸ hta⟩
  have hslo : ∀ c', c'%descriptorFifoSize≠c%descriptorFifoSize → c'≠c := fun c' hsl heq => hsl (heq ▸ rfl)
  rw [← hc] at hpc hall ⊢
  have hcur : (s.regionOf c).seqNum=c := h.current_master (hpc ▸ hold)
  rw [hcur]
  have hfifo : ∀ q, q≠p → ((s.setRegion c { s.regionOf c with seqNum := c+descriptorFifoSize }).setFifo
      p (s.fifo p).releaseHead).fifo q = s.fifo q := fun q => fifo_setFifo_of_ne
  have hseq : ∀ c', c'%descriptorFifoSize=c%descriptorFifoSize →
      ((s.setRegion c { s.regionOf c with seqNum := c+descriptorFifoSize }).setFifo p
        (s.fifo p).releaseHead).regionOf c' = { s.regionOf c with seqNum := c+descriptorFifoSize } ∧
      (s.regionOf c').seqNum=c := by
    intro c' hsl
    rw [regionOf_setFifo,regionOf_setRegion hsl,regionOf_congr s hsl]
    exact ⟨rfl,hcur⟩
  have hoth : ∀ c', c'%descriptorFifoSize≠c%descriptorFifoSize →
      ((s.setRegion c { s.regionOf c with seqNum := c+descriptorFifoSize }).setFifo p
        (s.fifo p).releaseHead).regionOf c' = s.regionOf c' := fun c' =>
    regionOf_setRegion_of_ne
  have hpos : 0<descriptorFifoSize := by decide
  refine ⟨fun q => ?_,fun c' => ?_,fun q c' hc' => ?_,fun c' => ?_,fun c' hc' q hq => ?_,
    fun q hres => ?_,fun c' hold' hne hrou => ?_,fun c' hc' => ?_⟩
  · obtain rfl | hq := eq_or_ne q p
    · rw [fifo_setFifo]
      exact (h.process q).releaseHead hta hdn
    · rw [hfifo q hq]
      exact h.process q
  · by_cases hsl : c'%descriptorFifoSize=c%descriptorFifoSize
    · rw [(hseq c' hsl).1,hsl]
      exact slot_add c
    · rw [hoth c' hsl]
      exact h.slot c'
  · have hle : c'≤(s.regionOf c').seqNum := by
      obtain rfl | hq := eq_or_ne q p
      · rw [fifo_setFifo] at hc'
        exact h.published q c' hc'
      · rw [hfifo q hq] at hc'
        exact h.published q c' hc'
    by_cases hsl : c'%descriptorFifoSize=c%descriptorFifoSize
    · rw [(hseq c' hsl).1]
      rw [(hseq c' hsl).2] at hle
      exact hle.trans (Nat.le_add_right _ _)
    · rwa [hoth c' hsl]
  · have hiff := h.masterHead c'
    have hhe : ((((s.setRegion c { s.regionOf c with seqNum := c+descriptorFifoSize }).setFifo p
        (s.fifo p).releaseHead).fifo (master c')).head ≤ c' ↔ (s.fifo (master c')).head ≤ c' ∧ c'≠c) := by
      obtain hq | hq := eq_or_ne (master c') p
      · rw [hq,fifo_setFifo]
        simp only [CollectiveFifo.releaseHead]
        omega
      · have hne : c'≠c := fun heq => hq (heq ▸ hpc.symm)
        rw [hfifo _ hq]
        exact (and_iff_left hne).symm
    rw [hhe,← hiff]
    by_cases hsl : c'%descriptorFifoSize=c%descriptorFifoSize
    · rw [(hseq c' hsl).1,(hseq c' hsl).2]
      constructor
      · intro hle
        change c+descriptorFifoSize ≤ c' at hle
        omega
      · intro haft
        obtain ⟨hle,hne⟩ := haft
        exact slot_next hsl.symm (by omega)
    · rw [hoth c' hsl]
      exact (and_iff_left (hslo c' hsl)).symm
  · by_cases hsl : c'%descriptorFifoSize=c%descriptorFifoSize
    · rw [(hseq c' hsl).1] at hc'
      obtain hlt | rfl | hlt := lt_trichotomy c' c
      · exact h.passed c' (by rwa [(hseq c' hsl).2]) q hq
      · exact hall q hq
      · exact absurd hc' (Nat.not_lt.mpr (slot_next hsl.symm hlt))
    · rw [hoth c' hsl] at hc'
      exact h.passed c' hc' q hq
  · obtain rfl | hq := eq_or_ne q p
    · simp [CollectiveFifo.releaseHead] at hres
    · rw [hfifo q hq] at hres ⊢
      exact h.resetting q hres
  · obtain hq | hq := eq_or_ne (master c') p
    · rw [hq,fifo_setFifo] at hold' hne
      obtain ⟨hold',hsl,hd⟩ := h.held_of_releaseHead hta hold'
      rw [← hc] at hsl
      rw [hd] at hne
      rw [hoth c' hsl]
      refine h.numConsumers c' (hq ▸ hold') (hq ▸ hne) ?_
      rw [hq,← hc]
      exact fun hrou => hslo c' hsl hrou.2.symm
    · rw [hfifo _ hq] at hold' hne hrou
      have hsl : c'%descriptorFifoSize≠c%descriptorFifoSize := by
        intro hsl
        obtain rfl := published_eq hcur (h.current_master hold') hsl
        exact hq hpc.symm
      rw [hoth c' hsl]
      exact h.numConsumers c' hold' hne hrou
  · by_cases hsl : c'%descriptorFifoSize=c%descriptorFifoSize
    · have hnn : doneConsumers consumers s c' = ∅ := by
        apply filter_eq_empty_iff.mpr
        intro q _ hs
        have hle := h.published q c' ((h.process q).fetched c' hs)
        rw [(hseq c' hsl).2] at hle
        rw [(hseq c' hsl).1] at hc'
        change c+descriptorFifoSize=c' at hc'
        omega
      have hzr := h.doneCounter c hcur
      rw [if_pos ⟨hpc ▸ hr,hpc ▸ hc.symm⟩] at hzr
      have hdn' : doneConsumers consumers ((s.setRegion c { s.regionOf c with
          seqNum := c+descriptorFifoSize }).setFifo p (s.fifo p).releaseHead) c' = ∅ := hnn
      rw [(hseq c' hsl).1,hdn',card_empty,ite_self]
      exact hzr
    · rw [hoth c' hsl] at hc' ⊢
      have hcou := h.doneCounter c' hc'
      obtain hq | hq := eq_or_ne (master c') p
      · rw [hq,if_neg (fun hrou => hslo c' hsl (hrou.2.symm.trans hc.symm))] at hcou
        rw [hq,fifo_setFifo,if_neg (by simp [CollectiveFifo.releaseHead])]
        exact hcou
      · rw [hfifo _ hq]
        exact hcou

end CollectiveInvariant

variable {n : ℕ} {master : ℕ → Fin n} {consumers : ℕ → Finset (Fin n)} {s s' : LocalProcesses n}

namespace CollectiveInvariant

theorem release (h : CollectiveInvariant master consumers s) {p : Fin n}
    (hs : s.release p = some s') : CollectiveInvariant master consumers s' := by
  have hp := h.process p
  simp only [LocalProcesses.release] at hs
  split at hs
  case isTrue hr =>
    obtain rfl := some.inj hs
    exact h.publish hr
  case isFalse hr =>
    replace hr : (s.fifo p).resetting=false := Bool.eq_false_iff.mpr hr
    obtain ⟨⟨hta,hdn⟩,hs⟩ := ite_none_right_eq_some.mp hs
    split at hs
    case isTrue hmas =>
      split at hs
      case isTrue => simp at hs
      case isFalse huse =>
        obtain rfl := some.inj hs
        exact h.reset hr hta hdn hmas (Bool.eq_false_iff.mpr huse)
    case isFalse hmas =>
      obtain rfl := some.inj hs
      have hagr := hp.agreed _ ⟨le_rfl,hta⟩ (hdn.trans_ne (by decide))
      refine h.releaseHead hr hta hdn fun heq => hmas ?_
      rw [hagr,heq]

theorem step {e : CollectiveEvent n} (h : CollectiveInvariant master consumers s)
    (hs : LocalProcesses.step master consumers s e = some s') : CollectiveInvariant master consumers s' := by
  cases e with
  | fetch p =>
    obtain ⟨hr,hs⟩ := ite_none_left_eq_some.mp hs
    exact h.fetch (Bool.eq_false_iff.mpr hr) hs
  | setMaster p c =>
    obtain ⟨⟨hr,hold,-⟩,rfl⟩ := ite_some_none_eq_some.mp hs
    exact h.setMaster (by simpa using hr) hold
  | signalDone p c =>
    obtain ⟨⟨-,hold,-,hp,hsig⟩,rfl⟩ := ite_some_none_eq_some.mp hs
    exact h.signalDone hold hp (by simpa using hsig)
  | setDone p c =>
    obtain ⟨⟨hr,hold,hstt,hsig⟩,rfl⟩ := ite_some_none_eq_some.mp hs
    exact h.setDone (by simpa using hr) hold hstt hsig
  | release p => exact h.release hs

end CollectiveInvariant

namespace LocalProcesses

/-- In every interleaving, when two processes hold a slot for different collectives, all consumers of the earlier one have
signalled done; its master resets a slot after that; and each window is as large as the ring. -/
theorem slots_reused (h : Run (step master consumers) (fun _ _ => True) initial s) :
    (∀ p q c c', (s.fifo p).Holds c → (s.fifo q).Holds c' → c % descriptorFifoSize = c' % descriptorFifoSize → c < c' →
      ∀ r ∈ consumers c, s.signalled r c = true) ∧
    (∀ p, (s.fifo p).resetting = true → p = master (s.fifo p).head ∧
      ∀ r ∈ consumers (s.fifo p).head, s.signalled r (s.fifo p).head = true) ∧
    ∀ p, (s.fifo p).head ≤ (s.fifo p).tail ∧ (s.fifo p).tail ≤ (s.fifo p).fifoEnd ∧
      (s.fifo p).fifoEnd = (s.fifo p).head + descriptorFifoSize := by
  have hs : CollectiveInvariant master consumers s :=
    h.invariant CollectiveInvariant.initial_invariant fun _ _ _ hs _ hsp => hs.step hsp
  refine ⟨fun p q c c' _ hold' hsl hlt r hr => ?_,fun p hres => ?_,fun p => ?_⟩
  · have hle : c'≤(s.regionOf c).seqNum := regionOf_congr s hsl ▸ hs.published q c' hold'.2
    exact hs.passed c (by omega) r hr
  · exact ⟨((hs.process p).resetting hres).2.2,hs.resetting p hres⟩
  · exact ⟨(hs.process p).headTail,(hs.process p).tailEnd,(hs.process p).fifoEnd⟩

/-- Process 1 has signalled done, but not released its descriptor, when the master goes on around the
ring. -/
def lap : List (CollectiveEvent 2) :=
  let first : Fin 2 := ⟨0, zero_lt_two⟩
  let second : Fin 2 := ⟨1, one_lt_two⟩
  [.fetch second, .setMaster second 0, .signalDone second 0, .setDone second 0,
    .fetch first, .setMaster first 0, .signalDone first 0, .setDone first 0, .release first,
    .release first] ++ List.replicate 64 (.fetch first)

theorem slots_reused_lap :
    ∃ s, execEvents (step (fun _ => 0) fun _ => Finset.univ) lap initial = some s ∧ ∀ r, s.signalled r 0 = true := by
  refine ⟨_,rfl,fun r => ?_⟩
  have hrun : Run (step (fun _ => 0) fun _ => Finset.univ) (fun _ _ => True) initial _ :=
    Run.refl.execEvents lap (fun _ _ _ => trivial) rfl
  exact (slots_reused hrun).1 1 0 0 64 (by decide) (by decide) (by decide) (by decide) r (mem_univ r)

/-- Two processes hold slot 0 for different collectives. -/
theorem slot_held_twice :
    ∃ s, execEvents (step (fun _ => 0) fun _ => Finset.univ) lap initial = some s ∧
      (s.fifo 1).Holds 0 ∧ (s.fifo 0).Holds 64 ∧ 0 % descriptorFifoSize = 64 % descriptorFifoSize :=
  ⟨_,rfl,by decide,by decide,rfl⟩

end LocalProcesses

end PAMI.Shmem
