import PAMI.TspColl.Alltoall

namespace PAMI.TspColl

open PAMI.Math Function List Nat

variable {N : ℕ} {β : Type*}

theorem A2aCall.rcell_inj (c : A2aCall β) (hdis : Set.InjOn c.rtype.cell (Set.Iio (N*c.len))) {a a' : Fin N} {q q' : ℕ}
    (hq : q < c.len) (hq' : q' < c.len) (h : c.rcell a q = c.rcell a' q') : a=a' ∧ q=q' := by
  have ht : 0 < c.rtype.dataSize := Nat.pos_of_mul_pos_right (zero_lt_of_lt hq)
  have hcell : ∀ k i, c.rcell k i = c.rtype.cell (k*c.len+i) := by
    intro k i
    have hblo : k*c.len=k*c.rtypecount*c.rtype.dataSize := by
      rw [A2aCall.len,mul_comm c.rtype.dataSize,mul_assoc]
    have hext : k*c.rpwqlen=k*c.rtypecount*c.rtype.extent := by
      rw [A2aCall.rpwqlen,mul_comm c.rtype.extent,mul_assoc]
    rw [A2aCall.rcell,hblo,c.rtype.cell_mul_add ht,hext]
  rw [hcell,hcell] at h
  have hin : ∀ (k : Fin N) i, i < c.len → k*c.len+i<N*c.len := by
    intro k i hi
    have hend : k*c.len+c.len≤N*c.len := by
      rw [← Nat.succ_mul]
      exact Nat.mul_le_mul_right _ k.isLt
    omega
  have heq : a*c.len+q=a'*c.len+q' := hdis (hin a q hq) (hin a' q' hq') h
  have hlen : 0 < c.len := zero_lt_of_lt hq
  have hdiv : ∀ k i, i < c.len → (k*c.len+i)/c.len=k := by
    intro k i hi
    rw [add_comm,add_mul_div_right _ _ hlen,div_eq_of_lt hi,zero_add]
  have ha : a=a' := Fin.ext (by rw [← hdiv a q hq,heq,hdiv a' q' hq'])
  subst ha
  exact ⟨rfl,Nat.add_left_cancel heq⟩

/-- What is in the receive buffer of a rank: the blocks that have come in, and its own one. -/
structure Filled (C : A2aCalls N β) (r : Fin N) (counter started : ℕ) (incoming : ℕ → Fin N → Bool) (rbuf : ℕ → β) :
    Prop where
  cells : 0 < counter → ∀ a, a = r ∧ 0 < started ∨ incoming counter a = true → ∀ q < (C.call r counter).len,
    rbuf ((C.call r counter).rcell a q) = (C.call a counter).source r q
  frame : 0 < counter → ∀ c, (∀ a : Fin N, ∀ q < (C.call r counter).len, (C.call r counter).rcell a q ≠ c) →
    rbuf c = (C.call r counter).rbuf c

section Filled

variable {C : A2aCalls N β} {r a : Fin N} {counter started k : ℕ} {incoming came : ℕ → Fin N → Bool} {rbuf : ℕ → β}

theorem Filled.write (h : Filled C r counter started incoming rbuf)
    (hcm : ∀ b, b=r ∧ 0<k ∨ came counter b = true → b=a ∨ b=r ∧ 0 < started ∨ incoming counter b = true) :
    Filled C r counter k came
      (Math.write ((C.call r counter).rcell a) ((C.call a counter).sendBlock r) rbuf) := by
  rw [A2aCall.sendBlock,C.len_eq a r]
  have hinj : ∀ i j, i<(C.call r counter).len → j<(C.call r counter).len →
      (C.call r counter).rcell a i = (C.call r counter).rcell a j → i=j :=
    fun i j hi hj heq => ((C.call r counter).rcell_inj (C.distinct r counter) hi hj heq).2
  refine ⟨fun hn b hb q hq => ?_,fun hn c hc => ?_⟩
  · by_cases heq : b=a
    · subst heq
      refine (write_cell _ (fun i j hi hj => ?_) (by rwa [length_map,length_range])).trans ?_
      · rw [length_map,length_range] at hi hj
        exact hinj i j hi hj
      · rw [getElem_map,getElem_range]
    · refine (write_range_of_ne fun i hi hcell => heq ?_).trans (h.cells hn b ((hcm b hb).resolve_left heq) q hq)
      exact ((C.call r counter).rcell_inj (C.distinct r counter) hi hq hcell).1.symm
  · exact (write_range_of_ne fun i hi => hc a i hi).trans (h.frame hn c hc)

end Filled

/-- What holds of a rank in all runs, with the flags of the messages from it and to it. -/
structure Ranked (C : A2aCalls N β) (r : Fin N) (x : Alltoall N β) (posted done incoming complete : ℕ → Fin N → Bool) :
    Prop where
  sends : Sends r x.counter x.started x.sent x.sndpwq posted done
  recvs : Recvs r x.counter x.started x.received incoming complete
  loops : Loops r x.counter x.started x.current x.loops x.work
  filled : Filled C r x.counter x.started incoming x.rbuf
  completions : x.completions = List.range' 1 (if x.isdone then x.counter else x.counter - 1)

namespace Ranked

variable {C : A2aCalls N β} {r a b : Fin N} {x y : Alltoall N β} {posted done incoming complete : ℕ → Fin N → Bool}
  {maxPending n : ℕ}

theorem isdone_iff (hs : Sends r x.counter x.started x.sent x.sndpwq posted done)
    (hr : Recvs r x.counter x.started x.received incoming complete) (hn : 0<x.counter) :
    x.isdone=true ↔ Over r x.counter x.started done complete := by
  rw [Alltoall.isdone,Bool.and_eq_true,Bool.and_eq_true,decide_eq_true_iff,decide_eq_true_iff,decide_eq_true_iff]
  exact over_iff hs hr hn

section

variable (h : Ranked C r x posted done incoming complete)
include h

theorem mem_completions {n : ℕ} :
    n ∈ x.completions ↔ 0<n ∧ (n<x.counter ∨ n=x.counter ∧ x.isdone=true) := by
  rw [h.completions,mem_range'_1]
  split
  case isTrue hdn =>
    simp only [hdn,and_true]
    omega
  case isFalse hdn =>
    simp only [hdn,Bool.false_eq_true,and_false,or_false]
    omega

theorem at_end (hmem : x.counter ∈ x.completions) : Over r x.counter x.started done complete := by
  obtain ⟨hn,hlt | ⟨-,hdn⟩⟩ := h.mem_completions.mp hmem
  · exact absurd hlt (lt_irrefl _)
  · exact (isdone_iff h.sends h.recvs hn).mp hdn

omit h in
theorem check (hs : Sends r y.counter y.started y.sent y.sndpwq posted done)
    (hr : Recvs r y.counter y.started y.received incoming complete)
    (hl : Loops r y.counter y.started y.current y.loops y.work)
    (hf : Filled C r y.counter y.started incoming y.rbuf) (hn : 0<y.counter)
    (hc : y.completions = List.range' 1 (y.counter-1)) :
    Ranked C r y.check posted done incoming complete := by
  refine ⟨hs,hr,hl,hf,?_⟩
  have hdn : y.check.isdone=y.isdone := rfl
  have hcmp : y.check.completions=y.completions ++ if y.isdone then [y.counter] else [] := rfl
  rw [hcmp,hdn,hc]
  split
  case isTrue =>
    have hsc : y.check.counter=y.counter-1+1 := (Nat.sub_add_cancel hn).symm
    have hla : 1+1*(y.counter-1)=y.counter := by omega
    rw [hsc,range'_concat,hla]
  case isFalse => exact append_nil _

theorem completions_of_not_over (hn : 0<x.counter) (hov : ¬ Over r x.counter x.started done complete) :
    x.completions = List.range' 1 (x.counter-1) := by
  rw [h.completions,if_neg]
  rwa [isdone_iff h.sends h.recvs hn]

theorem reset (hmem : x.counter=0 ∨ x.counter ∈ x.completions) :
    Ranked C r ((x.reset r (C.call r (x.counter+1))).enter false) posted done incoming complete := by
  have hov : 0<x.counter → Over r x.counter x.started done complete := fun hn => h.at_end (hmem.resolve_left hn.ne')
  have hzr : ∀ f : Bool → ℕ, update f (!x.odd) 0 (!x.odd)=0 := fun f => update_self ..
  have hs := h.sends.reset hov
  have hr := h.recvs.reset hov
  have hstr : ((x.reset r (C.call r (x.counter+1))).enter false).started=0 := hzr _
  have hsn : ((x.reset r (C.call r (x.counter+1))).enter false).sent=0 := hzr _
  have hrec : ((x.reset r (C.call r (x.counter+1))).enter false).received=0 := hzr _
  refine ⟨?_,?_,?_,?_,?_⟩
  · rw [hstr,hsn]
    exact hs
  · rw [hstr,hrec]
    exact hr
  · have hloo := h.loops.reset fun hn => (hov hn).started_eq
    have hent : ((x.reset r (C.call r (x.counter+1))).enter false).loops =
        ⟨0,false,false,x.counter+1⟩ :: x.loops :=
      congrArg (fun k => (⟨k,false,false,x.counter+1⟩ : Loop) :: x.loops) (hzr _)
    rw [hstr,hent]
    exact hloo
  · rw [hstr]
    refine ⟨fun _ a ha => ?_,fun _ _ _ => rfl⟩
    obtain ⟨-,hpos⟩ | hcm := ha
    · exact absurd hpos (lt_irrefl 0)
    · exact absurd (h.recvs.came _ a hcm).2.1 (not_succ_le_self _)
  · have hnot : ((x.reset r (C.call r (x.counter+1))).enter false).isdone=false := by
      rw [Alltoall.isdone,hsn,hstr,decide_eq_false (not_le.mpr r.pos),Bool.and_false,Bool.false_and]
    rw [hnot,if_neg Bool.false_ne_true]
    refine h.completions.trans ?_
    obtain hzr | hmem := hmem
    · have hcou : (if x.isdone then x.counter else x.counter-1)=0 := by
        rw [hzr]
        exact ite_self 0
      rw [hcou]
      exact congrArg (List.range' 1) hzr.symm
    · obtain ⟨-,hlt | ⟨-,hdn⟩⟩ := h.mem_completions.mp hmem
      · exact absurd hlt (lt_irrefl _)
      · rw [if_pos hdn]
        rfl

theorem repost (hwr : 0<x.work) (hid : x.loops = []) :
    Ranked C r (x.enter true) posted done incoming complete := by
  refine ⟨h.sends,h.recvs,?_,h.filled,h.completions⟩
  have hloo := h.loops
  rw [hid] at hloo
  have hent : (x.enter true).loops = [⟨x.started,false,true,x.counter⟩] := by rw [Alltoall.enter,hid]
  rw [hent]
  exact hloo.repost hwr

section

variable {l : Loop} {ls : List Loop} (hx : x.loops = l :: ls)
include hx

theorem copyOwn (hpst : l.posted=false) (hj : l.j<N) (hown : x.current=r) :
    Ranked C r (Alltoall.check { x.copyOwn r (C.call r x.counter) with loops := { l with posted := true } :: ls })
      posted done incoming complete := by
  have hloo := h.loops
  rw [hx] at hloo
  have hn := hloo.counter_pos
  obtain ⟨hlt,hcur,hloo⟩ := hloo.post hpst hj
  have hzr : x.started=0 := by
    rw [hown,eq_comm,← offset_eq_iff hlt] at hcur
    rw [← hcur]
    exact offset_eq_zero.mpr rfl
  have hov : ¬ Over r x.counter x.started done complete := by
    intro hov
    exact hlt.ne hov.started_eq
  have hsc : ∀ f : Bool → ℕ, update f x.odd (f x.odd+1) x.odd = f x.odd+1 := fun f => update_self ..
  have hsen := h.sends
  have hrcv := h.recvs
  rw [hzr] at hsen hrcv hloo
  apply check
  · refine (congrArg₂ (Sends r x.counter · · x.sndpwq posted done) ((hsc _).trans ?_) (hsc _)).mpr hsen.own
    exact congrArg (· + 1) hzr
  · refine (congrArg₂ (Recvs r x.counter · · incoming complete) ((hsc _).trans ?_) (hsc _)).mpr hrcv.own
    exact congrArg (· + 1) hzr
  · refine (congrArg (Loops r x.counter · x.current _ x.work) ((hsc _).trans ?_)).mpr hloo
    exact congrArg (· + 1) hzr
  · exact h.filled.write fun b hb => hb.imp And.left .inr
  · exact hn
  · exact h.completions_of_not_over hn hov

theorem post (hpst : l.posted=false) (hj : l.j<N) (hoth : x.current≠r) :
    Ranked C r { x.post with loops := { l with posted := true } :: ls } (mark posted x.counter x.current) done
      incoming complete := by
  have hloo := h.loops
  rw [hx] at hloo
  have hn := hloo.counter_pos
  obtain ⟨hlt,hcur,hloo⟩ := hloo.post hpst hj
  have hoft : offset r x.current=x.started := (offset_eq_iff hlt).mpr hcur.symm
  have hpos : 0<x.started := hoft ▸ Nat.pos_of_ne_zero (mt offset_eq_zero.mp hoth)
  have hsc : update x.sndstartedcount x.odd (x.started+1) x.odd=x.started+1 := update_self ..
  have hsen : Sends r x.counter x.post.started x.sent x.post.sndpwq (mark posted x.counter x.current) done := by
    refine (congrArg (Sends r x.counter · x.sent _ _ done) hsc).mpr ?_
    exact h.sends.post hn hlt hoth hoft
  have hrcv : Recvs r x.counter x.post.started x.received incoming complete := by
    refine (congrArg (Recvs r x.counter · x.received incoming complete) hsc).mpr ?_
    exact h.recvs.post hpos
  refine ⟨hsen,hrcv,?_,?_,?_⟩
  · exact (congrArg (Loops r x.counter · x.current _ x.work) hsc).mpr hloo
  · exact ⟨fun hn a ha => h.filled.cells hn a (ha.imp_left fun hown => ⟨hown.1,hpos⟩),h.filled.frame⟩
  · have hnot : ∀ k, ¬ Over r x.counter k done complete := by
      intro k hov
      have hbef := (h.sends.posted_iff _ _).mp (h.sends.done_posted _ _ (hov.done _ hoth))
      omega
    have hdn : ¬ x.post.isdone=true := fun hdn => hnot _ ((isdone_iff (x := x.post) hsen hrcv hn).mp hdn)
    exact (h.completions_of_not_over hn (hnot _)).trans (congrArg (List.range' 1) (if_neg hdn).symm)

theorem increment (hpst : l.posted=true) :
    Ranked C r (x.increment l ls) posted done incoming complete := by
  refine ⟨h.sends,h.recvs,?_,h.filled,h.completions⟩
  have hloo := h.loops
  rw [hx] at hloo
  refine hloo.increment hpst ?_
  apply Fin.ext
  change ((if hlt : (x.current+1 : ℕ)<N then ⟨x.current+1,hlt⟩ else ⟨0,x.current.pos⟩ : Fin N) : ℕ) =
    (x.current+1)%N
  split
  case isTrue hlt => exact (mod_eq_of_lt hlt).symm
  case isFalse hnot =>
    have hla : (x.current+1 : ℕ)=N := by omega
    rw [hla,mod_self]

theorem leave (hpst : l.posted=false) (hok : ls = [] ∨ x.allSent=true) :
    Ranked C r (x.leave l ls) posted done incoming complete := by
  refine ⟨h.sends,h.recvs,?_,h.filled,h.completions⟩
  have hloo := h.loops
  rw [hx] at hloo
  exact hloo.leave hpst (hok.imp_right decide_eq_true_iff.mp)

end

theorem senddone (hpst : posted n b = true) (hfre : done n b = false) :
    n=x.counter ∧ Ranked C r x.incSent.check posted (mark done n b) incoming complete := by
  obtain ⟨hm,hne,hlt⟩ := (h.sends.posted_iff n b).mp hpst
  obtain rfl : n=x.counter := by
    obtain hlt | ⟨heq,-⟩ := hlt
    · rw [h.sends.past n b hm hlt hne] at hfre
      contradiction
    · exact heq
  have hov : ¬ Over r x.counter x.started done complete := by
    intro hov
    rw [hov.done b hne] at hfre
    contradiction
  have hsc : update x.sndcount x.odd (x.sent+1) x.odd=x.sent+1 := update_self ..
  refine ⟨rfl,check (y := x.incSent) ?_ h.recvs h.loops h.filled hm (h.completions_of_not_over hm hov)⟩
  exact (congrArg (Sends r x.counter x.started · x.sndpwq posted _) hsc).mpr (h.sends.senddone hpst hfre)

theorem arrive (hm : 0<n) (hle : n≤x.counter) (hne : a≠r) (hfre : incoming n a = false) :
    Ranked C r { x with rbuf := write ((C.call r x.counter).rcell a) ((C.call a n).sendBlock r) x.rbuf } posted done
      (mark incoming n a) complete := by
  obtain rfl : n=x.counter := by
    obtain hlt | heq := lt_or_eq_of_le hle
    · rw [h.recvs.complete_incoming n a (h.recvs.past n a hm hlt hne)] at hfre
      contradiction
    · exact heq
  refine ⟨h.sends,h.recvs.arrive hm hne,h.loops,h.filled.write fun b hb => ?_,h.completions⟩
  obtain hown | hcm := hb
  · exact .inr (.inl hown)
  · exact (mark_iff.mp hcm).elim (fun hold => .inr (.inr hold)) fun hnew => .inl hnew.2

theorem recvcomplete (hinc : incoming n a = true) (hfre : complete n a = false) :
    Ranked C r x.incReceived.check posted done incoming (mark complete n a) := by
  obtain ⟨hm,hle,hne⟩ := h.recvs.came n a hinc
  obtain rfl : n=x.counter := by
    obtain hlt | heq := lt_or_eq_of_le hle
    · rw [h.recvs.past n a hm hlt hne] at hfre
      contradiction
    · exact heq
  have hov : ¬ Over r x.counter x.started done complete := by
    intro hov
    rw [hov.complete a hne] at hfre
    contradiction
  have hsc : update x.rcvcount x.odd (x.received+1) x.odd=x.received+1 := update_self ..
  refine check (y := x.incReceived) h.sends ?_ h.loops h.filled hm (h.completions_of_not_over hm hov)
  exact (congrArg (Recvs r x.counter x.started · incoming _) hsc).mpr (h.recvs.recvcomplete hinc hfre)

end

theorem new (sndstartedcount : Bool → ℕ) (rbuf : ℕ → β) :
    Ranked C r (Alltoall.new r sndstartedcount rbuf) (fun _ _ => false) (fun _ _ => false) (fun _ _ => false)
      fun _ _ => false where
  sends := by
    refine ⟨fun hn => absurd hn (lt_irrefl 0),fun m b => iff_of_false Bool.false_ne_true ?_,fun _ _ h => h,
      fun hn => absurd hn (lt_irrefl 0),fun m b hm hlt => absurd hlt (Nat.not_lt_zero m),fun _ h => by contradiction⟩
    rintro ⟨hm,-,hlt | ⟨heq,-⟩⟩
    · exact Nat.not_lt_zero m hlt
    · exact hm.ne' heq
  recvs := ⟨fun hn => absurd hn (lt_irrefl 0),fun m b hm hlt => absurd hlt (Nat.not_lt_zero m),
    fun _ _ h => by contradiction,fun _ _ h => h⟩
  loops := ⟨fun _ => rfl,fun _ hl => by contradiction,fun _ hl => by contradiction,
    fun hn => absurd hn (lt_irrefl 0),fun _ => (if_neg fun h => absurd h.1 (lt_irrefl 0)).symm,trivial⟩
  filled := ⟨fun hn => absurd hn (lt_irrefl 0),fun hn => absurd hn (lt_irrefl 0)⟩
  completions := by
    have hcou : (if (Alltoall.new r sndstartedcount rbuf : Alltoall N β).isdone then 0 else 0-1)=0 := ite_self 0
    exact (congrArg (List.range' 1) hcou).symm

end Ranked

end PAMI.TspColl
