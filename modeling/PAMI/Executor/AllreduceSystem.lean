import PAMI.Executor.AllreduceRuns

namespace PAMI.Executor

open PAMI.Math

namespace AllreduceSystem

open AllreduceExec

variable {ι V : Type*} {c : ReduceCache ι} {reduceFunc : V → V → V}
  {msg : ℕ → ℕ → V} {contribution : V} {s s' : AllreduceSystem V} {now : ℕ → Bool}

/-- The states of an executor: before `start`, between two inputs, and after the done callback. -/
inductive Inv (c : ReduceCache ι) (reduceFunc : V → V → V) (msg : ℕ → ℕ → V) (contribution : V)
    (s : AllreduceSystem V) : Prop
  | idle (hs : s.started = false)
      (h : Running c reduceFunc msg contribution s.exec s.arrived)
      (hpha : s.exec.curPhase = c.start) (hidx : s.exec.curIdx = 0)
      (hsd : s.exec.isSendDone = false) (hadv : s.exec.inAdvance = false)
  | waits (hs : s.started = true)
      (h : Running c reduceFunc msg contribution s.exec s.arrived)
      (hadv : s.exec.inAdvance = false)
      (hlac : s.exec.isSendDone = true → s.pending = 0 →
        ∃ i < c.getNumSrcRanks s.exec.curPhase, (s.exec.curPhase, i) ∉ s.arrived)
  | finished (hs : s.started = true)
      (h : Finished c reduceFunc msg contribution s.exec s.arrived)

/-- A message of a phase after the last reduce phase lands only when all phases before it that have
a source are passed. -/
def InOrder (c : ReduceCache ι) (s : AllreduceSystem V) : AllreduceInput → Prop
  | .receive p _ => c.getLastReducePhase < p →
      ∀ q, c.start ≤ q → q < p → 0 < c.getNumSrcRanks q → q < s.exec.curPhase
  | _ => True

theorem initial_inv (srcbuf dstbuf : V) (recvBufs : ℕ → ℕ → V) :
    Inv c reduceFunc msg srcbuf (initial c srcbuf dstbuf recvBufs) := by
  have hend : c.start ≤ c.getEndPhase := by
    obtain ⟨p,hp,hle,-⟩ := c.active
    exact le_trans hp hle
  have hnil : c.messages c.start = [] := ReduceCache.messages_eq_nil (fun p hp hlt => by omega)
  refine .idle rfl ⟨⟨le_refl _,?_,nofun,?_,nofun,nofun,?_,?_,?_,rfl,?_,nofun⟩,nofun,hend,
    rfl,Nat.zero_le _,nofun⟩ rfl rfl rfl rfl
  · intro p hp hlt
    exact absurd hlt (not_lt.mpr hp)
  · intro p i _
    simp [initial,reset]
  · simp [initial,reset]
  · exact hnil.symm
  · intro pre p v post heq
    cases pre with
    | nil | cons a pre => cases heq
  · intro _
    exact ⟨fun _ => rfl,fun hne => absurd hnil hne⟩

theorem inv_advance {e : AllreduceExec V} (hs : s.started=true)
    (h : Running c reduceFunc msg contribution e s.arrived) (hex : s.exec = e.advance c reduceFunc now) :
    Inv c reduceFunc msg contribution s := by
  rcases advance_spec now h with hw | hf
  · rw [← hex] at hw
    exact .waits hs hw.running hw.inAdvance (fun hsd _ => hw.lacks hsd)
  · rw [← hex] at hf
    exact .finished hs hf

theorem inv_start (hfir : c.getNumSrcRanks c.start = c.getNumSrcRanks (firstPhase c))
    (h : Running c reduceFunc msg contribution s.exec s.arrived) (hpha : s.exec.curPhase=c.start)
    (hidx : s.exec.curIdx=0) (hadv : s.exec.inAdvance=false) : Inv c reduceFunc msg contribution
      { s with started := true, exec := s.exec.start c reduceFunc now } := by
  obtain ⟨⟨hle,hend⟩,hnn⟩ := firstPhase_spec c
  have hcore := h.core
  have hnsrc := h.curnsrc
  rw [hpha] at hcore hnsrc
  have hskip := hcore.skip hle hnn rfl
  have hrun : Running c reduceFunc msg contribution
      { s.exec with initialized := true, isSendDone := true, curPhase := firstPhase c }
      s.arrived := by
    refine ⟨{ hskip with },h.notDone,hend,hnsrc.trans hfir,?_,?_⟩
    · show s.exec.curIdx ≤ _
      rw [hidx]
      exact Nat.zero_le _
    · show ∀ i < s.exec.curIdx, _
      rw [hidx]
      exact nofun
  generalize hex : { s.exec with
    initialized := true, isSendDone := true, curPhase := firstPhase c } = e1 at hrun
  have hadv1 : e1.inAdvance=false := by
    rw [← hex]
    exact hadv
  have hsta : s.exec.start c reduceFunc now =
      if 0 < c.getNumDstRanks e1.curPhase then
        if (sendMessage now .srcbuf e1).isSendDone then
          advance c reduceFunc now (sendMessage now .srcbuf e1)
        else sendMessage now .srcbuf e1
      else advance c reduceFunc now e1 := by
    rw [← hex]
    rfl
  rw [hsta]
  by_cases hdst : 0 < c.getNumDstRanks e1.curPhase
  · rw [if_pos hdst]
    have hsn : Running c reduceFunc msg contribution (sendMessage now .srcbuf e1) s.arrived := by
      refine ⟨hrun.core.send _ _,?_,hrun.le_end,hrun.curnsrc,hrun.curIdx,hrun.looked⟩
      simpa [Done,sendMessage] using hrun.notDone
    by_cases hsd : (sendMessage now .srcbuf e1).isSendDone=true
    · rw [if_pos hsd]
      exact inv_advance rfl hsn rfl
    · rw [if_neg hsd]
      exact .waits rfl hsn hadv1 (fun h => absurd h hsd)
  · rw [if_neg hdst]
    exact inv_advance rfl hrun rfl

section

variable (h : Inv c reduceFunc msg contribution s)
include h

theorem inv_receive {p i : ℕ} (hok : InOrder c s (.receive p i)) (hp : c.start≤p ∧ p ≤ c.getEndPhase)
    (hi : i < c.getNumSrcRanks p) (hnew : (p, i) ∉ s.arrived) : Inv c reduceFunc msg contribution
      { s with
        exec := s.exec.receive c p i (msg p i), arrived := (p, i) :: s.arrived
        pending := s.pending+1 } := by
  have hfra : (s.exec.receive c p i (msg p i)).curPhase=s.exec.curPhase ∧
      (s.exec.receive c p i (msg p i)).curIdx=s.exec.curIdx ∧
      (s.exec.receive c p i (msg p i)).isSendDone=s.exec.isSendDone ∧
      (s.exec.receive c p i (msg p i)).inAdvance=s.exec.inAdvance := by
    rw [AllreduceExec.receive]
    split_ifs
    · exact ⟨rfl,rfl,rfl,rfl⟩
    · exact ⟨rfl,rfl,rfl,rfl⟩
  obtain ⟨hpha',hidx',hsd',hadv'⟩ := hfra
  cases h with
  | idle hs hrun hpha hidx hsd hadv =>
    exact .idle hs (hrun.receive hp hi hnew hok) (hpha'.trans hpha) (hidx'.trans hidx)
      (hsd'.trans hsd) (hadv'.trans hadv)
  | waits hs hrun hadv hlac =>
    exact .waits hs (hrun.receive hp hi hnew hok) (hadv'.trans hadv)
      (fun _ h => absurd h (Nat.succ_ne_zero _))
  | finished hs hfin => exact absurd (hfin.core.passed p hp.1 (Nat.lt_succ_of_le hp.2) i hi) hnew

theorem inv_receiveDone : Inv c reduceFunc msg contribution
      { s with
        pending := s.pending-1, exec := s.exec.notifyReceiveDone c reduceFunc now } := by
  rw [notifyReceiveDone]
  cases h with
  | idle hs hrun hpha hidx hsd hadv =>
    rw [if_neg (by simp [hsd])]
    exact .idle hs hrun hpha hidx hsd hadv
  | waits hs hrun hadv hlac =>
    by_cases hsd : s.exec.isSendDone=true
    · rw [if_pos ⟨hsd,by simp [hadv]⟩]
      exact inv_advance hs hrun rfl
    · rw [if_neg (fun h => hsd h.1)]
      exact .waits hs hrun hadv (fun h => absurd h hsd)
  | finished hs hfin =>
    rw [if_neg (by simp [hfin.isSendDone])]
    exact .finished hs hfin

theorem inv_sendDone (hs : s.started=true) (hdn : ¬ s.exec.Done) : Inv c reduceFunc msg contribution
      { s with exec := s.exec.notifySendDone c reduceFunc now } := by
  cases h with
  | idle hs' => exact absurd (hs.symm.trans hs') (by decide)
  | waits _ hrun hadv hlac =>
    have hex : s.exec.notifySendDone c reduceFunc now =
        advance c reduceFunc now { s.exec with isSendDone := true } := by
      rw [notifySendDone]
      simp [hadv]
    have hrun' : Running c reduceFunc msg contribution { s.exec with isSendDone := true }
        s.arrived :=
      ⟨{ hrun.core with },hrun.notDone,hrun.le_end,hrun.curnsrc,hrun.curIdx,hrun.looked⟩
    exact inv_advance hs hrun' hex
  | finished _ hfin => exact absurd hfin.done hdn

end

/-- What an allreduce owes its caller: the messages are combined once each, in the order of the phases, before what is sent
later; the result is that of the last broadcast phase, or the combination; and who is not done waits for something. -/
structure Correct (c : ReduceCache ι) (reduceFunc : V → V → V) (msg : ℕ → ℕ → V) (contribution : V)
    (s : AllreduceSystem V) : Prop where
  once : (combines s.exec.log).Nodup ∧ ∃ q, combines s.exec.log = c.messages q
  sends : ∀ pre p v post, s.exec.log = pre ++ .send p v :: post → combines pre = c.messages p
  all : s.exec.Done → combines s.exec.log = c.messages (c.getEndPhase + 1)
  kept : s.exec.Done → ∀ p, c.Broadcasts p → (∀ p', c.Broadcasts p' → p' ≤ p) → s.exec.dstbuf = msg p 0
  reduced : s.exec.Done → (∀ p, ¬ c.Broadcasts p) →
    s.exec.dstbuf = combination c reduceFunc msg contribution (c.getEndPhase + 1)
  waits : s.started = true → ¬ s.exec.Done → s.exec.isSendDone = true → s.pending = 0 →
    ∃ i < c.getNumSrcRanks s.exec.curPhase, (s.exec.curPhase, i) ∉ s.arrived

theorem Inv.correct (hsou : ∃ p, (c.start≤p ∧ p ≤ c.getEndPhase) ∧ 0 < c.getNumSrcRanks p)
    (h : Inv c reduceFunc msg contribution s) : Correct c reduceFunc msg contribution s := by
  have hrnn (hrun : Running c reduceFunc msg contribution s.exec s.arrived)
      (hwai : s.started=true → s.exec.isSendDone=true → s.pending=0 →
        ∃ i < c.getNumSrcRanks s.exec.curPhase, (s.exec.curPhase, i) ∉ s.arrived) :
      Correct c reduceFunc msg contribution s := by
    refine ⟨⟨?_,_,hrun.core.combined⟩,hrun.core.sends,fun h => absurd h hrun.notDone,
      fun h => absurd h hrun.notDone,fun h => absurd h hrun.notDone,
      fun hs _ => hwai hs⟩
    rw [hrun.core.combined]
    exact ReduceCache.messages_nodup _
  cases h with
  | idle hs hrun => exact hrnn hrun (fun h => absurd (hs.symm.trans h) (by decide))
  | waits hs hrun hadv hlac => exact hrnn hrun (fun _ => hlac)
  | finished hs hfin =>
    have hcore := hfin.core
    refine ⟨⟨?_,_,hcore.combined⟩,hcore.sends,fun _ => hcore.combined,?_,?_,fun _ h => absurd hfin.done h⟩
    · rw [hcore.combined]
      exact ReduceCache.messages_nodup _
    · intro _ p ⟨hla,hp,hpos⟩ hmax
      have hmem := hcore.passed p hp.1 (Nat.lt_succ_of_le hp.2) 0 hpos
      refine hcore.kept (p, 0) hmem hla ?_
      intro m hm
      show m.1≤p
      by_contra hlt
      obtain ⟨hm',hpos'⟩ := hcore.sources m hm
      exact hlt (hmax m.1 ⟨by omega,hm',by omega⟩)
    · intro _ hno
      have hone : ∀ m ∈ s.arrived, m.1 ≤ c.getLastReducePhase := by
        intro m hm
        by_contra hlt
        obtain ⟨hp,hpos⟩ := hcore.sources m hm
        exact hno m.1 ⟨not_le.mp hlt,hp,by omega⟩
      refine ((hcore.value hone).2 ?_).2
      obtain ⟨p,hp,hpos⟩ := hsou
      have hla : p ≤ c.getLastReducePhase := by
        by_contra hlt
        exact hno p ⟨not_le.mp hlt,hp,hpos⟩
      apply List.ne_nil_of_mem (a := (p, 0))
      exact ReduceCache.mem_messages.mpr ⟨⟨hp.1,by omega⟩,hla,hpos⟩

variable [DecidableEq V]

theorem step_inv (hfir : c.getNumSrcRanks c.start = c.getNumSrcRanks (firstPhase c))
    {input : AllreduceInput} (h : Inv c reduceFunc msg contribution s) (hok : InOrder c s input)
    (hsp : step c reduceFunc msg s input = some s') :
    Inv c reduceFunc msg contribution s' := by
  cases input with
  | start now =>
    simp only [step] at hsp
    split_ifs at hsp with hs
    cases hsp
    cases h with
    | idle hs' hrun hpha hidx hsd hadv => exact inv_start hfir hrun hpha hidx hadv
    | waits hs' | finished hs' => exact absurd hs' hs
  | receive p i =>
    simp only [step] at hsp
    split_ifs at hsp with hcond
    cases hsp
    exact inv_receive h hok ⟨hcond.1,hcond.2.1⟩ hcond.2.2.1 hcond.2.2.2
  | receiveDone now =>
    simp only [step] at hsp
    split_ifs at hsp
    cases hsp
    exact inv_receiveDone h
  | sendDone now =>
    simp only [step] at hsp
    split_ifs at hsp with hcond
    cases hsp
    exact inv_sendDone h hcond.1 hcond.2.2

/-- An allreduce is right in every run, if the start phase has as many sources as the first phase
with a partner, some phase has a source, and messages of the phases after the last reduce phase
land in order. -/
theorem allreduce_exact (hfir : c.getNumSrcRanks c.start = c.getNumSrcRanks (firstPhase c))
    (hsou : ∃ p, (c.start ≤ p ∧ p ≤ c.getEndPhase) ∧ 0 < c.getNumSrcRanks p)
    {srcbuf dstbuf : V} {recvBufs : ℕ → ℕ → V}
    (h : Run (step c reduceFunc msg) (InOrder c) (initial c srcbuf dstbuf recvBufs) s) :
    Correct c reduceFunc msg srcbuf s := by
  apply Inv.correct hsou
  apply h.invariant (initial_inv srcbuf dstbuf recvBufs)
  intro s input s' hinv hok hsp
  exact step_inv hfir hinv hok hsp

/-- Two phases with a source each, and a destination in the second. -/
def twoPhases : ReduceCache ℕ where
  start := 0
  nphases := 2
  srcTopology p := [p + 1]
  dstTopology p := if p = 1 then [7] else []
  lastReduce := none
  active := ⟨0, by decide⟩
  bcast p h h' := absurd h (not_lt.mpr h')

/-- The message of the second phase lands first, then the executor starts. -/
theorem allreduce_exact_early :
    ∃ s, Run (step twoPhases (· + ·) (fun p _ => 10^(p + 1))) (InOrder twoPhases)
        (initial twoPhases 1 0 (fun _ _ => 0)) s ∧ s.exec.Done ∧ s.exec.dstbuf = 111 ∧
      Correct twoPhases (· + ·) (fun p _ => 10^(p + 1)) 1 s := by
  have hok : ∀ s : AllreduceSystem ℕ, ∀ input ∈ [.receive 1 0,.start (fun _ => true),.receive 0 0,
      .receiveDone (fun _ => true)], InOrder twoPhases s input := by
    intro s input hinp
    cases input with
    | receive p i =>
      intro hla
      simp at hinp
      have : twoPhases.getLastReducePhase=1 := rfl
      omega
    | start now | receiveDone now | sendDone now => trivial
  have hsta : Run (step twoPhases (· + ·) (fun p _ => 10^(p + 1))) (InOrder twoPhases)
      (initial twoPhases 1 0 (fun _ _ => 0)) (initial twoPhases 1 0 (fun _ _ => 0)) := .refl
  have hrun := hsta.execEvents _ hok rfl
  exact ⟨_,hrun,by decide,by decide,allreduce_exact (by decide) ⟨0,by decide⟩ hrun⟩

/-- A first phase without partners, then one with a source. -/
def lateStart : ReduceCache ℕ where
  start := 0
  nphases := 2
  srcTopology p := if p = 1 then [7] else []
  dstTopology _ := []
  lastReduce := none
  active := ⟨1, by decide⟩
  bcast p h h' := absurd h (not_lt.mpr h')

/-- The executor calls the done callback from `start`, without the message. -/
theorem lateStart_not_combined :
    ∃ s, Run (step lateStart (· + ·) (fun _ _ => 10)) (InOrder lateStart)
        (initial lateStart 1 99 (fun _ _ => 0)) s ∧ s.exec.Done ∧ s.arrived = [] ∧
      s.exec.dstbuf = 99 ∧ ¬ Correct lateStart (· + ·) (fun _ _ => 10) 1 s := by
  have hrun : Run (step lateStart (· + ·) (fun _ _ => 10)) (InOrder lateStart)
      (initial lateStart 1 99 (fun _ _ => 0)) _ :=
    Run.refl.step (e := .start fun _ => true) trivial rfl
  refine ⟨_,hrun,by decide,rfl,rfl,?_⟩
  intro h
  exact absurd (h.all (by decide)) (by decide)

end AllreduceSystem

end PAMI.Executor
