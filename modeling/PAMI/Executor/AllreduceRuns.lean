import PAMI.Executor.Allreduce

namespace PAMI.Executor

open PAMI.Math List

namespace AllreduceExec

section Core

variable {ι V : Type*} {c : ReduceCache ι} {reduceFunc : V → V → V} {msg : ℕ → ℕ → V}
  {contribution : V} {e : AllreduceExec V} {arrived : List (ℕ × ℕ)}

/-- The messages an executor has combined, in order. -/
def combines (log : List (Action V)) : List (ℕ × ℕ) := log.filterMap fun
    | .combine p i => some (p, i)
    | _ => none

/-- The combination of the own contribution and the messages before a phase. -/
def combination (c : ReduceCache ι) (reduceFunc : V → V → V) (msg : ℕ → ℕ → V) (contribution : V)
    (q : ℕ) : V :=
  ((c.messages q).map fun m => msg m.1 m.2).foldl reduceFunc contribution

/-- The executor has passed the phases before `q`; it is in that phase, or behind the last. -/
structure Core (c : ReduceCache ι) (reduceFunc : V → V → V) (msg : ℕ → ℕ → V) (contribution : V)
    (q : ℕ) (e : AllreduceExec V) (arrived : List (ℕ × ℕ)) : Prop where
  le : c.start ≤ q
  passed : ∀ p, c.start ≤ p → p < q → ∀ i < c.getNumSrcRanks p, (p, i) ∈ arrived
  sources : ∀ m ∈ arrived, (c.start ≤ m.1 ∧ m.1 ≤ c.getEndPhase) ∧ m.2 < c.getNumSrcRanks m.1
  pwqs : ∀ p i, p ≤ c.getLastReducePhase → (e.pwqs p i = true ↔ (p, i) ∈ arrived ∧ q ≤ p)
  recvBufs : ∀ m ∈ arrived, m.1 ≤ c.getLastReducePhase → e.recvBufs m.1 m.2 = msg m.1 m.2
  order : ∀ m ∈ arrived, c.getLastReducePhase < m.1 → ∀ p, c.start ≤ p → p < m.1 → 0 < c.getNumSrcRanks p → p < q
  bcastpwq : e.bcastpwq = true ↔ ∃ m ∈ arrived, c.getLastReducePhase < m.1 ∧ q ≤ m.1
  combined : combines e.log = c.messages q
  sends : ∀ pre p v post, e.log = pre ++ .send p v :: post → combines pre = c.messages p
  srcbuf : e.srcbuf = contribution
  value : (∀ m ∈ arrived, m.1 ≤ c.getLastReducePhase) → (c.messages q = [] → e.src1 = .srcbuf) ∧
    (c.messages q ≠ [] → e.src1 = .reducebuf ∧ e.dstbuf = combination c reduceFunc msg contribution q)
  kept : ∀ m ∈ arrived, c.getLastReducePhase < m.1 → (∀ m' ∈ arrived, m'.1 ≤ m.1) → e.dstbuf = msg m.1 m.2

section

variable {q : ℕ} (h : Core c reduceFunc msg contribution q e arrived)
include h

theorem Core.available_iff (hq : q ≤ c.getEndPhase) {i : ℕ} (hi : i < c.getNumSrcRanks q) :
    available c e q i = true ↔ (q, i) ∈ arrived := by
  rw [available]
  split_ifs with hla
  · rw [h.pwqs q i hla]
    exact and_iff_left (le_refl _)
  · rw [h.bcastpwq]
    have hone : c.getNumSrcRanks q≤1 := c.bcast q (not_le.mp hla) hq
    constructor
    · rintro ⟨⟨p,j⟩,hmem,hp,hqp⟩
      -- a message of a later phase would have come out of order
      have heq : q=p := by
        by_contra hne
        have hlt := h.order _ hmem hp q h.le (lt_of_le_of_ne hqp hne) (by omega)
        exact absurd hlt (lt_irrefl _)
      have hj : j < c.getNumSrcRanks p := (h.sources _ hmem).2
      rw [← heq] at hj hmem
      have hij : j=i := by omega
      rw [hij] at hmem
      exact hmem
    · intro hmem
      exact ⟨_,hmem,not_le.mp hla,le_refl _⟩

omit h in
theorem combines_append_combine (log : List (Action V)) (p n : ℕ) :
    combines (log ++ (List.range n).map (.combine p)) = combines log ++ (List.range n).map (Prod.mk p) := by
  simp [combines,filterMap_append,filterMap_map]

omit h in
theorem split_append {α : Type*} {log ext pre post : List α} {a : α} (h : log ++ ext = pre ++ a :: post) :
    (∃ post', log = pre ++ a :: post') ∨ ∃ mid, pre = log ++ mid ∧ ext = mid ++ a :: post := by
  rcases append_eq_append_iff.mp h with ⟨mid,hpre,hext⟩ | ⟨mid,hlog,hext⟩
  · exact .inr ⟨mid,hpre,hext⟩
  · cases mid with
    | nil => exact .inr ⟨[],by simpa using hlog.symm,by simpa using hext.symm⟩
    | cons x mid =>
      rw [cons_append,List.cons.injEq] at hext
      rw [← hext.1] at hlog
      exact .inl ⟨mid,hlog⟩

theorem Core.sends_append {ext : List (Action V)} (hext : ∀ p v, Action.send p v ∉ ext)
    {pre post : List (Action V)} {p : ℕ} {v : V} (heq : e.log ++ ext = pre ++ .send p v :: post) :
    combines pre = c.messages p := by
  rcases split_append heq with ⟨post',hlog⟩ | ⟨mid,-,hmid⟩
  · exact h.sends pre p v post' hlog
  · exact absurd (hmid ▸ mem_append_right _ mem_cons_self) (hext p v)

theorem Core.value_src1 (hno : ∀ m ∈ arrived, m.1 ≤ c.getLastReducePhase) :
    e.value e.src1 = combination c reduceFunc msg contribution q := by
  by_cases hnil : c.messages q = []
  · rw [(h.value hno).1 hnil,combination,hnil]
    exact h.srcbuf
  · obtain ⟨hsrc1,hdst⟩ := (h.value hno).2 hnil
    rw [hsrc1]
    exact hdst

end

section

variable (h : Core c reduceFunc msg contribution e.curPhase e arrived)
  (hn : e.curnsrc = c.getNumSrcRanks e.curPhase)
include h hn

theorem Core.finish_reduce (hla : e.curPhase ≤ c.getLastReducePhase)
    (hall : ∀ i < c.getNumSrcRanks e.curPhase, (e.curPhase, i) ∈ arrived) :
    Core c reduceFunc msg contribution (e.curPhase+1) (resetQueues c (combine c reduceFunc e))
      arrived := by
  have hpha : c.phaseMessages e.curPhase =
      (List.range (c.getNumSrcRanks e.curPhase)).map (Prod.mk e.curPhase) := if_pos hla
  have hsc := ReduceCache.messages_succ h.le
  rw [hpha] at hsc
  rw [combine,if_pos hla,foldl_combineOne,resetQueues,if_pos hla,hn]
  refine ⟨by have := h.le; omega,?_,h.sources,?_,h.recvBufs,?_,?_,?_,?_,h.srcbuf,?_,?_⟩
  · intro p hp hlt i hi
    rcases Nat.lt_succ_iff_lt_or_eq.mp hlt with hlt | rfl
    · exact h.passed p hp hlt i hi
    · exact hall i hi
  · intro p i hp
    have hold := h.pwqs p i hp
    show (if p=e.curPhase ∧ i < c.getNumSrcRanks e.curPhase then false else e.pwqs p i)=true ↔ _
    split_ifs with hcur
    · obtain ⟨rfl,-⟩ := hcur
      simp
    · rw [hold]
      constructor
      · rintro ⟨hmem,hle⟩
        refine ⟨hmem,Nat.lt_of_le_of_ne hle ?_⟩
        rintro rfl
        exact hcur ⟨rfl,(h.sources _ hmem).2⟩
      · rintro ⟨hmem,hle⟩
        exact ⟨hmem,by omega⟩
  · intro m hm hm' p hp hlt hpos
    exact Nat.lt_succ_of_lt (h.order m hm hm' p hp hlt hpos)
  · rw [h.bcastpwq]
    constructor
    · rintro ⟨m,hm,hm',-⟩
      exact ⟨m,hm,hm',by omega⟩
    · rintro ⟨m,hm,hm',hle⟩
      exact ⟨m,hm,hm',by omega⟩
  · show combines (e.log ++ _) = _
    rw [combines_append_combine,h.combined,hsc]
  · intro pre p v post heq
    refine h.sends_append ?_ heq
    intro p v hmem
    simp at hmem
  · intro hno
    have hval := h.value_src1 hno
    have hcomb : combination c reduceFunc msg contribution (e.curPhase+1) =
        ((List.range (c.getNumSrcRanks e.curPhase)).map (e.recvBufs e.curPhase)).foldl reduceFunc
          (e.value e.src1) := by
      rw [combination,hsc,map_append,foldl_append,List.map_map,hval]
      congr 1
      apply map_congr_left
      intro i hi
      exact (h.recvBufs _ (hall i (mem_range.mp hi)) hla).symm
    by_cases hzr : c.getNumSrcRanks e.curPhase=0
    · have hsm : c.messages (e.curPhase+1) = c.messages e.curPhase := by
        rw [hsc,hzr,range_zero,map_nil,append_nil]
      have hcmb : combination c reduceFunc msg contribution (e.curPhase+1) =
          combination c reduceFunc msg contribution e.curPhase := by
        rw [combination,combination,hsm]
      simp only [hzr,if_true,hsm,hcmb]
      exact h.value hno
    · simp only [hzr,if_false]
      refine ⟨?_,fun _ => ⟨trivial,hcomb.symm⟩⟩
      intro hnil
      rw [hsc] at hnil
      simp [hzr] at hnil
  · intro m hm hm' hmax
    have hzr : c.getNumSrcRanks e.curPhase=0 := by
      by_contra hne
      exact lt_irrefl _ (h.order m hm hm' e.curPhase h.le (by omega) (Nat.pos_of_ne_zero hne))
    simp only [hzr,if_true]
    exact h.kept m hm hm' hmax

theorem Core.finish_bcast (hla : ¬ e.curPhase ≤ c.getLastReducePhase)
    (hall : ∀ i < c.getNumSrcRanks e.curPhase, (e.curPhase, i) ∈ arrived) :
    Core c reduceFunc msg contribution (e.curPhase+1) (resetQueues c (combine c reduceFunc e))
      arrived := by
  have hsm : c.messages (e.curPhase+1) = c.messages e.curPhase := by
    rw [ReduceCache.messages_succ h.le,ReduceCache.phaseMessages,if_neg hla,append_nil]
  have hcmb : combination c reduceFunc msg contribution (e.curPhase+1) =
      combination c reduceFunc msg contribution e.curPhase := by
    rw [combination,combination,hsm]
  rw [combine,if_neg hla,resetQueues,if_neg hla,hn]
  refine ⟨by have := h.le; omega,?_,h.sources,?_,h.recvBufs,?_,?_,?_,h.sends,h.srcbuf,?_,h.kept⟩
  · intro p hp hlt i hi
    rcases Nat.lt_succ_iff_lt_or_eq.mp hlt with hlt | rfl
    · exact h.passed p hp hlt i hi
    · exact hall i hi
  · intro p i hp
    rw [h.pwqs p i hp]
    constructor
    · rintro ⟨hmem,hle⟩
      omega
    · rintro ⟨hmem,hle⟩
      omega
  · intro m hm hm' p hp hlt hpos
    exact Nat.lt_succ_of_lt (h.order m hm hm' p hp hlt hpos)
  · show (if 0 < c.getNumSrcRanks e.curPhase then false else e.bcastpwq)=true ↔ _
    split_ifs with hpos
    · simp only [false_iff,not_exists,not_and]
      intro m hm hm' hle
      exact lt_irrefl _ (h.order m hm hm' e.curPhase h.le (by omega) hpos)
    · rw [h.bcastpwq]
      constructor
      · rintro ⟨m,hm,hm',hle⟩
        refine ⟨m,hm,hm',Nat.lt_of_le_of_ne hle ?_⟩
        intro heq
        have hlt := (h.sources m hm).2
        rw [← heq] at hlt
        omega
      · rintro ⟨m,hm,hm',hle⟩
        exact ⟨m,hm,hm',by omega⟩
  · rw [hsm]
    exact h.combined
  · intro hno
    rw [hsm,hcmb]
    exact h.value hno

theorem Core.finish (hall : ∀ i < c.getNumSrcRanks e.curPhase, (e.curPhase, i) ∈ arrived) :
    Core c reduceFunc msg contribution (e.curPhase+1) (resetQueues c (combine c reduceFunc e))
      arrived := by
  by_cases hla : e.curPhase ≤ c.getLastReducePhase
  · exact h.finish_reduce hn hla hall
  · exact h.finish_bcast hn hla hall

end

theorem Core.send {q : ℕ} (h : Core c reduceFunc msg contribution q e arrived) (b : Bool) (v : V) :
    Core c reduceFunc msg contribution q
      { e with isSendDone := b, log := e.log ++ [.send q v] } arrived := by
  have hcom : combines (e.log ++ [.send q v]) = combines e.log := by simp [combines,filterMap_append]
  refine { h with combined := hcom.trans h.combined, sends := ?_ }
  intro pre p w post heq
  rcases split_append heq with ⟨post',hlog⟩ | ⟨mid,hpre,hmid⟩
  · exact h.sends pre p w post' hlog
  · cases mid with
    | nil =>
      cases hmid
      rw [hpre,append_nil]
      exact h.combined
    | cons a mid => simp at hmid

theorem Core.done {q : ℕ} (h : Core c reduceFunc msg contribution q e arrived) :
    Core c reduceFunc msg contribution q (complete e) arrived := by
  have hcom : combines (e.log ++ [.done]) = combines e.log := by simp [combines,filterMap_append]
  refine { h with combined := hcom.trans h.combined, sends := ?_ }
  intro pre p w post heq
  exact h.sends_append (by simp) heq

/-- The executor is in a phase, and has looked at its first messages. -/
structure Running (c : ReduceCache ι) (reduceFunc : V → V → V) (msg : ℕ → ℕ → V) (contribution : V)
    (e : AllreduceExec V) (arrived : List (ℕ × ℕ)) : Prop where
  core : Core c reduceFunc msg contribution e.curPhase e arrived
  notDone : ¬ e.Done
  le_end : e.curPhase ≤ c.getEndPhase
  curnsrc : e.curnsrc = c.getNumSrcRanks e.curPhase
  curIdx : e.curIdx ≤ c.getNumSrcRanks e.curPhase
  looked : ∀ i < e.curIdx, (e.curPhase, i) ∈ arrived

/-- The executor has called the done callback. -/
structure Finished (c : ReduceCache ι) (reduceFunc : V → V → V) (msg : ℕ → ℕ → V)
    (contribution : V) (e : AllreduceExec V) (arrived : List (ℕ × ℕ)) : Prop where
  core : Core c reduceFunc msg contribution (c.getEndPhase + 1) e arrived
  done : e.Done
  isSendDone : e.isSendDone = false
  inAdvance : e.inAdvance = true

/-- The executor waits: if not for a send, then for a message of its phase. -/
structure Waits (c : ReduceCache ι) (reduceFunc : V → V → V) (msg : ℕ → ℕ → V) (contribution : V)
    (e : AllreduceExec V) (arrived : List (ℕ × ℕ)) : Prop where
  running : Running c reduceFunc msg contribution e arrived
  inAdvance : e.inAdvance = false
  lacks : e.isSendDone = true → ∃ i < c.getNumSrcRanks e.curPhase, (e.curPhase, i) ∉ arrived

theorem Running.look {idx : ℕ} (h : Running c reduceFunc msg contribution e arrived)
    (hidx : idx ≤ c.getNumSrcRanks e.curPhase) (hloo : ∀ i < idx, (e.curPhase, i) ∈ arrived) :
    Running c reduceFunc msg contribution { e with curIdx := idx } arrived :=
  ⟨{ h.core with },h.notDone,h.le_end,h.curnsrc,hidx,hloo⟩

theorem combine_frame (c : ReduceCache ι) (reduceFunc : V → V → V) (e : AllreduceExec V) :
    (resetQueues c (combine c reduceFunc e)).curPhase=e.curPhase ∧
      (resetQueues c (combine c reduceFunc e)).inAdvance=e.inAdvance ∧
      (e.Done ↔ (resetQueues c (combine c reduceFunc e)).Done) := by
  by_cases hla : e.curPhase ≤ c.getLastReducePhase
  · rw [combine,if_pos hla,foldl_combineOne,resetQueues,if_pos hla]
    simp [Done]
  · rw [combine,if_neg hla,resetQueues,if_neg hla]
    simp [Done]

theorem advanceLoop_spec (now : ℕ → Bool) (fuel : ℕ) (hfuel : c.getEndPhase<e.curPhase+fuel)
    (hadv : e.inAdvance=true) (h : Running c reduceFunc msg contribution e arrived) :
    Waits c reduceFunc msg contribution (advanceLoop c reduceFunc now fuel e) arrived ∨
      Finished c reduceFunc msg contribution (advanceLoop c reduceFunc now fuel e) arrived := by
  induction fuel generalizing e with
  | zero =>
    have := h.le_end
    omega
  | succ fuel ih =>
    obtain ⟨hle,hbou,hpas,hstop⟩ := firstLacking_spec (available c e e.curPhase) (e.curnsrc-e.curIdx) e.curIdx
    have hcur := h.curIdx
    have hnsrc := h.curnsrc
    rw [advanceLoop]
    generalize firstLacking (available c e e.curPhase) (e.curnsrc-e.curIdx) e.curIdx=idx at *
    have hidx : idx ≤ c.getNumSrcRanks e.curPhase := by omega
    have hloo : ∀ i < idx, (e.curPhase, i) ∈ arrived := by
      intro i hi
      by_cases hold : i<e.curIdx
      · exact h.looked i hold
      · rw [← h.core.available_iff h.le_end (by omega)]
        exact hpas i (not_lt.mp hold) hi
    have hlook := h.look hidx hloo
    simp only []
    by_cases hlack : idx<e.curnsrc
    · -- a message is lacking
      rw [if_pos hlack]
      refine .inl ⟨⟨{ hlook.core with },h.notDone,h.le_end,hnsrc,hidx,hloo⟩,rfl,?_⟩
      intro _
      have hlt : idx < c.getNumSrcRanks e.curPhase := by omega
      refine ⟨idx,hlt,?_⟩
      rw [← h.core.available_iff h.le_end hlt,hstop (by omega)]
      exact Bool.false_ne_true
    · rw [if_neg hlack]
      have hall : ∀ i < c.getNumSrcRanks e.curPhase, (e.curPhase, i) ∈ arrived := by
        intro i hi
        exact hloo i (by omega)
      have hcore := hlook.core.finish hnsrc hall
      obtain ⟨hpha,hadv',hdn⟩ := combine_frame c reduceFunc { e with curIdx := idx }
      have hnot := mt hdn.mpr hlook.notDone
      generalize resetQueues c (combine c reduceFunc { e with curIdx := idx })=e2 at *
      have hpha : e2.curPhase=e.curPhase := hpha
      have hcore : Core c reduceFunc msg contribution (e.curPhase+1) e2 arrived := hcore
      have hend := h.le_end
      by_cases hla : e2.curPhase=c.getEndPhase
      · -- this was the last phase
        rw [if_pos hla]
        rw [← hpha,hla] at hcore
        exact .inr ⟨hcore.done,by simp [Done,complete],rfl,hadv'.trans hadv⟩
      · rw [if_neg hla]
        have hnx : Running c reduceFunc msg contribution (nextPhase c e2) arrived := by
          rw [← hpha] at hcore
          refine ⟨{ hcore with },hnot,?_,rfl,Nat.zero_le _,nofun⟩
          show e2.curPhase+1 ≤ _
          omega
        have hfuel' : c.getEndPhase<(nextPhase c e2).curPhase+fuel := by
          show _ < e2.curPhase+1+fuel
          omega
        by_cases hdst : 0 < c.getNumDstRanks (nextPhase c e2).curPhase
        · rw [if_pos hdst]
          have hsn : Running c reduceFunc msg contribution
              (sendMessage now .reducebuf (nextPhase c e2)) arrived := by
            refine ⟨hnx.core.send _ _,?_,hnx.le_end,hnx.curnsrc,hnx.curIdx,hnx.looked⟩
            simpa [Done,sendMessage] using hnx.notDone
          by_cases hsd : (sendMessage now .reducebuf (nextPhase c e2)).isSendDone=true
          · rw [if_pos hsd]
            exact ih hfuel' (hadv'.trans hadv) hsn
          · -- the executor waits for the send
            rw [if_neg hsd]
            exact .inl ⟨⟨{ hsn.core with },hsn.notDone,hsn.le_end,hsn.curnsrc,
              hsn.curIdx,hsn.looked⟩,rfl,fun h => absurd h hsd⟩
        · rw [if_neg hdst]
          exact ih hfuel' (hadv'.trans hadv) hnx

theorem advance_spec (now : ℕ → Bool) (h : Running c reduceFunc msg contribution e arrived) :
    Waits c reduceFunc msg contribution (advance c reduceFunc now e) arrived ∨
      Finished c reduceFunc msg contribution (advance c reduceFunc now e) arrived := by
  apply advanceLoop_spec now
  · have := h.le_end
    show _ < e.curPhase+_
    omega
  · rfl
  · exact ⟨{ h.core with },h.notDone,h.le_end,h.curnsrc,h.curIdx,h.looked⟩

theorem Core.receive {q p i : ℕ} (h : Core c reduceFunc msg contribution q e arrived)
    (hp : c.start≤p ∧ p ≤ c.getEndPhase) (hi : i < c.getNumSrcRanks p)
    (hnew : (p, i) ∉ arrived)
    (hord : c.getLastReducePhase<p → ∀ p', c.start≤p' → p'<p → 0 < c.getNumSrcRanks p' → p'<q) :
    Core c reduceFunc msg contribution q (e.receive c p i (msg p i)) ((p, i) :: arrived) := by
  have hqp : q≤p := by
    by_contra hlt
    exact hnew (h.passed p hp.1 (not_le.mp hlt) i hi)
  have hpas : ∀ p', c.start≤p' → p'<q → ∀ i' < c.getNumSrcRanks p', (p', i') ∈ (p, i) :: arrived := by
    intro p' hp' hlt i' hi'
    exact mem_cons_of_mem _ (h.passed p' hp' hlt i' hi')
  have hsou : ∀ m ∈ (p, i) :: arrived, (c.start ≤ m.1 ∧ m.1 ≤ c.getEndPhase) ∧ m.2 < c.getNumSrcRanks m.1 := by
    intro m hm
    rcases mem_cons.mp hm with rfl | hm
    · exact ⟨hp,hi⟩
    · exact h.sources m hm
  have hors : ∀ m ∈ (p, i) :: arrived, c.getLastReducePhase < m.1 →
      ∀ p', c.start≤p' → p' < m.1 → 0 < c.getNumSrcRanks p' → p'<q := by
    intro m hm hm'
    rcases mem_cons.mp hm with rfl | hm
    · exact hord hm'
    · exact h.order m hm hm'
  rw [AllreduceExec.receive]
  by_cases hla : p ≤ c.getLastReducePhase
  · rw [if_pos hla]
    refine ⟨h.le,hpas,hsou,?_,?_,hors,?_,h.combined,h.sends,h.srcbuf,?_,?_⟩
    · intro p' i' hp'
      show (if p'=p ∧ i'=i then true else e.pwqs p' i')=true ↔ _
      split_ifs with heq
      · obtain ⟨rfl,rfl⟩ := heq
        simp [hqp]
      · rw [h.pwqs p' i' hp',mem_cons,Prod.mk.injEq,or_iff_right heq]
    · intro m hm hm'
      show (if m.1=p ∧ m.2=i then msg p i else e.recvBufs m.1 m.2)=msg m.1 m.2
      split_ifs with heq
      · rw [heq.1,heq.2]
      · rcases mem_cons.mp hm with rfl | hm
        · exact absurd ⟨rfl,rfl⟩ heq
        · exact h.recvBufs m hm hm'
    · show e.bcastpwq=true ↔ _
      rw [h.bcastpwq]
      constructor
      · rintro ⟨m,hm,hm'⟩
        exact ⟨m,mem_cons_of_mem _ hm,hm'⟩
      · rintro ⟨m,hm,hm'⟩
        rcases mem_cons.mp hm with rfl | hm
        · exact absurd hm'.1 (not_lt.mpr hla)
        · exact ⟨m,hm,hm'⟩
    · intro hno
      exact h.value (fun m hm => hno m (mem_cons_of_mem _ hm))
    · intro m hm hm' hmax
      rcases mem_cons.mp hm with rfl | hm
      · exact absurd hm' (not_lt.mpr hla)
      · exact h.kept m hm hm' (fun m' hmem => hmax m' (mem_cons_of_mem _ hmem))
  · rw [if_neg hla]
    refine ⟨h.le,hpas,hsou,?_,?_,hors,?_,h.combined,h.sends,h.srcbuf,?_,?_⟩
    · intro p' i' hp'
      have hne : ¬ (p'=p ∧ i'=i) := by
        rintro ⟨rfl,-⟩
        exact hla hp'
      rw [mem_cons,Prod.mk.injEq,or_iff_right hne]
      exact h.pwqs p' i' hp'
    · intro m hm hm'
      rcases mem_cons.mp hm with rfl | hm
      · exact absurd hm' hla
      · exact h.recvBufs m hm hm'
    · exact iff_of_true rfl ⟨_,mem_cons_self,not_le.mp hla,hqp⟩
    · intro hno
      exact absurd (hno _ mem_cons_self) hla
    · intro m hm hm' hmax
      rcases mem_cons.mp hm with rfl | hm
      · rfl
      · -- it came before, so its phase is not a later one
        have hle : p ≤ m.1 := hmax _ mem_cons_self
        have hmp : m.1=p := by
          by_contra hne
          have hlt := h.order m hm hm' p hp.1 (by omega) (by omega)
          omega
        have hone : c.getNumSrcRanks p≤1 := c.bcast p (not_le.mp hla) hp.2
        have hm2 := (h.sources m hm).2
        rw [hmp] at hm2
        have heq : m=(p, i) := Prod.ext hmp (by omega)
        rw [heq] at hm
        exact absurd hm hnew

theorem Running.receive {p i : ℕ} (h : Running c reduceFunc msg contribution e arrived)
    (hp : c.start≤p ∧ p ≤ c.getEndPhase) (hi : i < c.getNumSrcRanks p) (hnew : (p, i) ∉ arrived)
    (hord : c.getLastReducePhase<p → ∀ p', c.start≤p' → p'<p → 0 < c.getNumSrcRanks p' → p'<e.curPhase) :
    Running c reduceFunc msg contribution (e.receive c p i (msg p i)) ((p, i) :: arrived) := by
  have hcore := h.core.receive hp hi hnew hord
  have hfra : (e.receive c p i (msg p i)).curPhase=e.curPhase ∧ (e.receive c p i (msg p i)).curnsrc=e.curnsrc ∧
      (e.receive c p i (msg p i)).curIdx=e.curIdx ∧
      (e.receive c p i (msg p i)).log=e.log := by
    rw [AllreduceExec.receive]
    split_ifs
    · exact ⟨rfl,rfl,rfl,rfl⟩
    · exact ⟨rfl,rfl,rfl,rfl⟩
  obtain ⟨hpha,hnsrc,hidx,hlog⟩ := hfra
  refine ⟨by rw [hpha]; exact hcore,?_,?_,?_,?_,?_⟩
  · rw [Done,hlog]
    exact h.notDone
  · rw [hpha]
    exact h.le_end
  · rw [hpha,hnsrc]
    exact h.curnsrc
  · rw [hpha,hidx]
    exact h.curIdx
  · rw [hpha,hidx]
    intro j hj
    exact mem_cons_of_mem _ (h.looked j hj)

theorem Core.skip {q q' : ℕ} (h : Core c reduceFunc msg contribution q e arrived) (hle : q≤q')
    (hnn : ∀ p, q≤p → p<q' → c.getNumSrcRanks p = 0) (hq : q=c.start) :
    Core c reduceFunc msg contribution q' e arrived := by
  have hmsgs : c.messages q' = c.messages q := by
    rw [ReduceCache.messages_eq_nil (fun p hp hlt => hnn p (hq ▸ hp) hlt),
      ReduceCache.messages_eq_nil (fun p hp hlt => by omega)]
  have hphs : ∀ m ∈ arrived, q ≤ m.1 → q' ≤ m.1 := by
    intro m hm hqm
    by_contra hlt
    have hzr := hnn m.1 hqm (not_le.mp hlt)
    have hpos := (h.sources m hm).2
    omega
  have hsta : c.start≤q' := le_trans h.le hle
  refine { h with
    le := hsta, passed := ?_, pwqs := ?_, order := ?_, bcastpwq := ?_, combined := ?_
    value := ?_ }
  · intro p hp hlt i hi
    rw [hnn p (by omega) hlt] at hi
    omega
  · intro p i hp
    rw [h.pwqs p i hp]
    constructor
    · rintro ⟨hmem,hqp⟩
      exact ⟨hmem,hphs _ hmem hqp⟩
    · rintro ⟨hmem,hqp⟩
      exact ⟨hmem,by omega⟩
  · intro m hm hm' p hp hlt hpos
    have := h.order m hm hm' p hp hlt hpos
    omega
  · rw [h.bcastpwq]
    constructor
    · rintro ⟨m,hm,hm',hqm⟩
      exact ⟨m,hm,hm',hphs m hm hqm⟩
    · rintro ⟨m,hm,hm',hqm⟩
      exact ⟨m,hm,hm',by omega⟩
  · rw [hmsgs]
    exact h.combined
  · rw [hmsgs,combination,hmsgs]
    exact h.value

end Core

end AllreduceExec

end PAMI.Executor
