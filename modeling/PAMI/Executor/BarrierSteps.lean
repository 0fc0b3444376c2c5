import PAMI.Executor.BarrierSystem

namespace PAMI.Executor

open Function List Nat

variable {ι : Type*}

open PAMI.Math BarrierExec

section Invariant

variable [DecidableEq ι] {member : ι → Prop} {cache : ι → ScheduleCache ι}
  {exec : ι → BarrierExec} {starts bound : ι → ℕ} {net got : List (Msg ι)}

namespace Inv

variable {signed : Bool} {a : ι} {e' : BarrierExec}

section

variable (hd : Disseminates member cache) (h : Inv member cache exec starts bound net got)
include hd h

theorem count {m : Msg ι} (hm : m ∈ net) : Inv member cache
      (update exec m.dst (BarrierExec.count m.phase m.iteration (exec m.dst))) starts bound
      (net.erase m) (m :: got) := by
  obtain ⟨hdst,hact,hsrc⟩ := h.mem_src hd (mem_append_left got hm)
  obtain ⟨-,-,-,hit,-,-⟩ := h.sent (mem_append_left got hm)
  have hnot : m ∉ got := fun hgot => disjoint_of_nodup_append h.nodup hm hgot
  have hperm : (net.erase m ++ m :: got).Perm (net ++ got) :=
    perm_middle.trans ((perm_cons_erase hm).symm.append_right got)
  generalize hex : update exec m.dst (BarrierExec.count m.phase m.iteration (exec m.dst))=exec'
  have hsm (a : ι) : (exec' a).phase=(exec a).phase ∧ (exec' a).iteration=(exec a).iteration := by
    rw [← hex]
    by_cases ha : a=m.dst
    · rw [ha,update_self]
      exact ⟨rfl,rfl⟩
    · rw [update_of_ne ha]
      exact ⟨rfl,rfl⟩
  have hvec (a : ι) (p : ℕ) (b : Bool) : (exec' a).phasevec p b =
      if a=m.dst ∧ p=m.phase ∧ b=m.iteration then (exec a).phasevec p b-1
      else (exec a).phasevec p b := by
    rw [← hex]
    by_cases ha : a=m.dst
    · rw [ha,update_self,BarrierExec.count]
      simp only [true_and]
    · rw [update_of_ne ha,if_neg (fun hc => ha hc.1)]
  -- one row for the round `k`, which is that of the rank or the next one
  have hrow {a : ι} {p k : ℕ} {x : BitVec 8} (hk : k=starts a ∨ k=starts a+1)
      (hold : (exec a).phasevec p (bit k) = x-BitVec.ofNat 8 (heard cache got a p k)) :
      (exec' a).phasevec p (bit k) = x-BitVec.ofNat 8 (heard cache (m :: got) a p k) := by
    rw [hvec]
    by_cases hthis : a=m.dst ∧ p=m.phase ∧ k=m.round
    · obtain ⟨rfl,rfl,rfl⟩ := hthis
      rw [if_pos ⟨rfl,rfl,hit.symm⟩,hold,heard_cons hit hnot (hd.nodup_src hdst hact) hsrc,BitVec.ofNat_add]
      exact sub_sub _ _ _
    · rw [heard_cons_ne hthis,if_neg,hold]
      rintro ⟨rfl,rfl,hbit⟩
      have hcas := h.round_cases hd hm
      have hne : k≠m.round := fun hk => hthis ⟨rfl,rfl,hk⟩
      rw [hit] at hbit
      have hflip := bit_succ (starts m.dst)
      rcases hk with rfl | rfl <;> rcases hcas with hc | hc
      · exact hne hc.symm
      · rw [hc,hflip] at hbit
        exact (Bool.eq_not_self _).mp hbit
      · rw [hc,hflip] at hbit
        exact (Bool.not_eq_self _).mp hbit
      · exact hne hc.symm
  refine ⟨?_,?_,?_,?_,?_,?_,?_,?_,?_,?_⟩
  · intro a ha
    rw [(hsm a).1]
    exact h.start_le ha
  · intro a ha
    rw [(hsm a).1]
    exact h.le_finish ha
  · intro a ha
    rw [(hsm a).1]
    exact h.bound_le ha
  · intro a ha
    rw [(hsm a).1]
    exact h.begun ha
  · intro a ha
    rw [(hsm a).2]
    exact h.iteration ha
  · intro a p ha hp
    exact hrow (.inl rfl) (h.row ha hp)
  · intro a p ha hp
    have hnx := h.next ha hp
    rw [← zero_sub] at hnx ⊢
    exact hrow (.inr rfl) hnx
  · intro a p k c ha hp hk hpast hc
    rw [(hsm a).1] at hpast
    exact mem_cons_of_mem _ (h.past ha hp hk hpast hc)
  · intro m' hm'
    exact h.sent (hperm.mem_iff.mp hm')
  · exact hperm.nodup_iff.mpr h.nodup

theorem advance (ha : member a) (hadv : Advances signed (cache a) (exec a) e') :
    Inv member cache (update exec a e') starts bound net got := by
  generalize hex : update exec a e'=exec'
  have hse : exec' a=e' := by rw [← hex,update_self]
  have hoth {b : ι} (hb : b≠a) : exec' b = exec b := by rw [← hex,update_of_ne hb]
  have hsm (b : ι) : (exec' b).iteration=(exec b).iteration ∧ (exec' b).phasevec=(exec b).phasevec := by
    by_cases hb : b=a
    · rw [hb,hse]
      exact ⟨hadv.iteration,hadv.phasevec⟩
    · rw [hoth hb]
      exact ⟨rfl,rfl⟩
  have hle (b : ι) : (exec b).phase≤(exec' b).phase := by
    by_cases hb : b=a
    · rw [hb,hse]
      exact hadv.le
    · rw [hoth hb]
  refine ⟨?_,?_,?_,?_,?_,?_,?_,?_,h.sent,h.nodup⟩
  · intro b hb
    exact le_trans (h.start_le hb) (hle b)
  · intro b hb
    by_cases hba : b=a
    · rw [hba,hse]
      exact hadv.le_finish
    · rw [hoth hba]
      exact h.le_finish hb
  · intro b hb
    exact le_trans (h.bound_le hb) (succ_le_succ (hle b))
  · intro b hb hlt
    exact h.begun hb (lt_of_le_of_lt (hle b) hlt)
  · intro b hb
    rw [(hsm b).1]
    exact h.iteration hb
  · intro b p hb hp
    rw [(hsm b).2]
    exact h.row hb hp
  · intro b p hb hp
    rw [(hsm b).2]
    exact h.next hb hp
  · intro b p k c hb hp hk hpast hc
    by_cases hold : Past (starts b) (exec b).phase p k
    · exact h.past hb hp hk hold hc
    · have hba : b=a := by
        by_contra hba
        rw [hoth hba] at hpast
        exact hold hpast
      subst hba
      rw [hse] at hpast
      rcases hpast with hlt | ⟨rfl,hlt⟩
      · exact absurd (.inl hlt) hold
      · have hge : (exec b).phase≤p := not_lt.mp fun hlt => hold (.inr ⟨rfl,hlt⟩)
        have hard := hadv.arrived p hge hlt
        rw [h.iteration hb,h.nonpos_iff hd signed hb hp hk,heard,countP_eq_length] at hard
        exact of_decide_eq_true (hard c hc)

omit hd h in
theorem keep (h : Inv member cache exec starts bound net got) (ha : member a) :
    Inv member cache exec starts (update bound a ((exec a).phase+1)) net got := by
  refine ⟨h.start_le,h.le_finish,?_,h.begun,h.iteration,h.row,h.next,h.past,?_,h.nodup⟩
  · intro b hb
    by_cases hba : b=a
    · rw [hba,update_self]
    · rw [update_of_ne hba]
      exact h.bound_le hb
  · intro m hm
    obtain ⟨h1,h2,h3,h4,h5,h6⟩ := h.sent hm
    refine ⟨h1,h2,h3,h4,h5,?_⟩
    rcases h6 with hlt | ⟨heq,hlt⟩
    · exact .inl hlt
    · refine .inr ⟨heq,lt_of_lt_of_le hlt ?_⟩
      by_cases hba : m.src=a
      · rw [hba,update_self]
        exact h.bound_le ha
      · rw [update_of_ne hba]

theorem send (ha : member a) {p : ℕ} (hact : (cache a).Active p) (hp : bound a ≤ p)
    (hpha : p≤(exec a).phase) (h0 : starts a ≠ 0) :
    Inv member cache exec starts (update bound a ((exec a).phase+1))
      (net ++ ((cache a).dstTopology p).map fun b => edge a b p (starts a)) got := by
  have hk := h.keep ha
  have hperm : ((net ++ ((cache a).dstTopology p).map fun b => edge a b p (starts a)) ++ got).Perm
      ((((cache a).dstTopology p).map fun b => edge a b p (starts a)) ++ (net ++ got)) := by
    rw [← List.append_assoc]
    exact perm_append_comm.append_right got
  refine ⟨h.start_le,h.le_finish,hk.bound_le,h.begun,h.iteration,h.row,h.next,h.past,?_,?_⟩
  · intro m hm
    rcases mem_append.mp (hperm.mem_iff.mp hm) with hm | hm
    · obtain ⟨b,hb,rfl⟩ := mem_map.mp hm
      refine ⟨ha,hact,hb,rfl,h0,.inr ⟨rfl,?_⟩⟩
      show p<update bound a ((exec a).phase+1) a
      rw [update_self]
      exact lt_succ_of_le hpha
    · exact hk.sent hm
  · have hnew : (((cache a).dstTopology p).map fun b => edge a b p (starts a)).Nodup :=
      (hd.nodup_dst ha hact).map fun b b' hbb => congrArg Msg.dst hbb
    rw [hperm.nodup_iff]
    refine hnew.append h.nodup fun m hm hold => ?_
    obtain ⟨b,-,rfl⟩ := mem_map.mp hm
    obtain ⟨-,-,-,-,-,hlt | ⟨-,hlt⟩⟩ := h.sent hold
    · exact lt_irrefl _ hlt
    · exact absurd hlt (not_lt.mpr hp)

omit hd h in
theorem sendNext (signed : Bool) (e' : BarrierExec) (eff : Effect) (hd : Disseminates member cache)
    (h : Inv member cache exec starts bound net got) (ha : member a) (hb : bound a ≤ (exec a).phase)
    (h0 : starts a ≠ 0) (hadv : Advances signed (cache a) (exec a) e')
    (hen : Ends signed (cache a) (exec a) e' eff) :
    Inv member cache (update exec a e') starts (update bound a (e'.phase+1))
      (net ++ System.messages (cache a) a (starts a) eff) got := by
  have hmov := h.advance hd ha hadv
  have hse : update exec a e' a=e' := update_self _ _ _
  have hsta := le_trans (h.start_le ha) hadv.le
  have hkeep := hmov.keep ha
  rw [hse,← append_nil net] at hkeep
  have hsd (p : ℕ) (hp : (exec a).phase≤p) (hp' : p≤e'.phase) (hf : p<(cache a).finish) :
      Inv member cache (update exec a e') starts (update bound a (e'.phase+1))
        (net ++ ((cache a).dstTopology p).map fun b => ⟨a,b,p,(exec a).iteration,starts a⟩)
        got := by
    have hact : (cache a).Active p := ⟨le_trans (h.start_le ha) hp,hf⟩
    have hs := hmov.send hd ha hact (le_trans hb hp) (by rw [hse]; exact hp') h0
    rw [hse] at hs
    rw [h.iteration ha]
    exact hs
  cases hen with
  | done | waits => exact hkeep
  | sends hf => exact hsd _ hadv.le (le_refl _) hf
  | sendsLast p hp hla hf => exact hsd p hp (by omega) (by omega)

omit hd h in
theorem leave (signed : Bool) (e0 e' : BarrierExec) (eff : Effect) (hd : Disseminates member cache)
    (h : Inv member cache exec starts bound net got) (ha : member a) (hlt : (exec a).phase<(cache a).finish)
    (hv : nonpos signed ((exec a).phasevec (exec a).phase (exec a).iteration) = true)
    (he0 : e0.iteration=(exec a).iteration ∧ e0.phasevec=(exec a).phasevec ∧ e0.phase=(exec a).phase+1)
    (hadv : Advances signed (cache a) e0 e') (hen : Ends signed (cache a) e0 e' eff) :
    Inv member cache (update exec a e') starts (update bound a (e'.phase+1))
      (net ++ System.messages (cache a) a (starts a) eff) got := by
  obtain ⟨hit,hvec,hpha⟩ := he0
  have hse : update exec a e0 a=e0 := update_self _ _ _
  have hmid : Advances signed (cache a) (exec a) e0 := by
    refine ⟨hit,hvec,by omega,by omega,fun p h1 h2 => ?_⟩
    obtain rfl : p=(exec a).phase := by omega
    exact hv
  have hnx := (h.advance hd ha hmid).sendNext signed e' eff hd ha
    (by rw [hse,hpha]; exact h.bound_le ha) (h.begun ha hlt) (hse.symm ▸ hadv)
    (hse.symm ▸ hen)
  rw [update_idem] at hnx
  exact hnx

theorem reset (ha : member a) (hfin : (exec a).phase=(cache a).finish) :
    Inv member cache (update exec a (BarrierExec.reset (cache a) (exec a)))
      (update starts a (starts a+1)) (update bound a 0) net got := by
  generalize hex : update exec a (BarrierExec.reset (cache a) (exec a))=exec'
  generalize hstr : update starts a (starts a+1)=starts'
  generalize hbou : update bound a 0=bound'
  have hse : exec' a = BarrierExec.reset (cache a) (exec a) ∧ starts' a = starts a+1 ∧ bound' a=0 := by
    rw [← hex,← hstr,← hbou,update_self,update_self,update_self]
    exact ⟨rfl,rfl,rfl⟩
  have hoth {b : ι} (hb : b≠a) :
      exec' b = exec b ∧ starts' b = starts b ∧ bound' b = bound b := by
    rw [← hex,← hstr,← hbou,update_of_ne hb,update_of_ne hb,update_of_ne hb]
    exact ⟨rfl,rfl,rfl⟩
  clear hex hstr hbou
  have hbit : (!(exec a).iteration)=bit (starts a+1) := by rw [h.iteration ha,bit_succ]
  -- all messages of the round before have come, so its row is clear
  have hcle {p : ℕ} (hp : (cache a).Active p) :
      (exec a).phasevec p (bit (starts a))=0 := by
    rw [h.row ha hp]
    split_ifs with h0
    · rw [h0,h.heard_eq_zero hd (.inl rfl)]
      rfl
    · rw [h.heard_eq_length ha hp h0 (.inr ⟨rfl,hfin ▸ hp.2⟩),sub_self]
  refine ⟨?_,?_,?_,?_,?_,?_,?_,?_,?_,h.nodup⟩
  · intro b hb
    by_cases hba : b=a
    · rw [hba,hse.1]
      exact le_refl _
    · rw [(hoth hba).1]
      exact h.start_le hb
  · intro b hb
    by_cases hba : b=a
    · rw [hba,hse.1]
      exact Nat.le_add_right _ _
    · rw [(hoth hba).1]
      exact h.le_finish hb
  · intro b hb
    by_cases hba : b=a
    · rw [hba,hse.2.2]
      exact Nat.zero_le _
    · rw [(hoth hba).1,(hoth hba).2.2]
      exact h.bound_le hb
  · intro b hb
    by_cases hba : b=a
    · rw [hba,hse.2.1]
      exact fun _ => succ_ne_zero _
    · rw [(hoth hba).1,(hoth hba).2.1]
      exact h.begun hb
  · intro b hb
    by_cases hba : b=a
    · rw [hba,hse.1,hse.2.1]
      exact hbit
    · rw [(hoth hba).1,(hoth hba).2.1]
      exact h.iteration hb
  · intro b p hb hp
    by_cases hba : b=a
    · subst hba
      have hnow : (cache b).start≤p ∧ p<(cache b).start+(cache b).nphases ∧
          bit (starts b+1) = !(exec b).iteration := ⟨hp.1,hp.2,hbit.symm⟩
      rw [hse.1,hse.2.1,if_neg (succ_ne_zero _),BarrierExec.reset]
      simp only [if_pos hnow]
      rw [h.next hb hp,neg_add_eq_sub]
    · rw [(hoth hba).1,(hoth hba).2.1]
      exact h.row hb hp
  · intro b p hb hp
    by_cases hba : b=a
    · subst hba
      have htwi : bit (starts b+1+1) = bit (starts b) := by rw [bit_succ,bit_succ,Bool.not_not]
      have hnot : ¬ ((cache b).start≤p ∧ p<(cache b).start+(cache b).nphases ∧
          bit (starts b) = !(exec b).iteration) := by
        rw [h.iteration hb]
        exact fun hc => (Bool.eq_not_self _).mp hc.2.2
      rw [hse.1,hse.2.1,htwi,BarrierExec.reset]
      simp only [if_neg hnot]
      rw [hcle hp,h.heard_eq_zero hd (.inr (lt_succ_self _))]
      rfl
    · rw [(hoth hba).1,(hoth hba).2.1]
      exact h.next hb hp
  · intro b p k c hb hp hk hpast hc
    by_cases hba : b=a
    · subst hba
      rw [hse.1,hse.2.1] at hpast
      refine h.past hb hp hk ?_ hc
      rcases hpast with hlt | ⟨-,hlt⟩
      · rcases Nat.lt_succ_iff_lt_or_eq.mp hlt with hlt | heq
        · exact .inl hlt
        · exact .inr ⟨heq,hfin ▸ hp.2⟩
      · exact absurd hlt (not_lt.mpr hp.1)
    · rw [(hoth hba).1,(hoth hba).2.1] at hpast
      exact h.past hb hp hk hpast hc
  · intro m hm
    obtain ⟨h1,h2,h3,h4,h5,h6⟩ := h.sent hm
    refine ⟨h1,h2,h3,h4,h5,?_⟩
    by_cases hba : m.src=a
    · rw [hba,hse.2.1]
      rw [hba] at h6
      rcases h6 with hlt | ⟨heq,-⟩
      · exact .inl (lt_succ_of_lt hlt)
      · exact .inl (lt_succ_of_le heq.le)
    · rw [(hoth hba).2.1,(hoth hba).2.2]
      exact h6

end

end Inv

end Invariant

end PAMI.Executor
