import PAMI.Executor.BarrierSteps
import PAMI.Schedule.Collectives

namespace PAMI.Executor

open Function Rank List Option

variable {ι : Type*}

open PAMI.Math BarrierExec

namespace Rank

section Counted

variable {signed : Bool} {c : ScheduleCache ι} {s s' : Rank} {eff : Effect}

def Counted (c : ScheduleCache ι) (s : Rank) : Prop :=
  s.dones + s.app + (if s.exec.phase = c.finish then 0 else 1) = s.starts

theorem put_counted {e e' : BarrierExec} (hen : Ends signed c e e' eff)
    (h : s.dones+s.app+1=s.starts) : Counted c (s.put (e', eff)) := by
  cases hen with
  | done hf =>
    show s.dones+1+s.app+(if e'.phase=c.finish then 0 else 1)=s.starts
    rw [if_pos hf]
    omega
  | waits hf | sends hf =>
    show s.dones+s.app+(if e'.phase=c.finish then 0 else 1)=s.starts
    rw [if_neg hf.ne]
    exact h
  | sendsLast p hp hla hf =>
    show s.dones+(s.app+1)+(if e'.phase=c.finish then 0 else 1)=s.starts
    rw [if_pos hf]
    omega

theorem Counted.of_lt (h : Counted c s) (hlt : s.exec.phase < c.finish) :
    s.dones+s.app+1=s.starts := by
  rw [Counted,if_neg hlt.ne] at h
  exact h

theorem Counted.handle {ev : Event} (hv : Valid c s) (h : Counted c s)
    (hh : s.handle signed c ev = some (s', eff)) : Counted c s' := by
  cases ev with
  | start =>
    obtain ⟨hpha,e',rfl,-,hen⟩ := handle_start hh
    rw [Counted,if_pos hpha] at h
    exact put_counted hen (congrArg (· + 1) h)
  | notifyRecv phase iteration =>
    rcases handle_notifyRecv hh hv.start_le with ⟨rfl,-,-⟩ | ⟨hlt,-,-,e',rfl,-,hen⟩
    · exact h
    · exact put_counted hen (h.of_lt hlt)
  | sendDone =>
    obtain ⟨-,⟨rfl,-,-⟩ | ⟨hlt,-,e',rfl,-,hen⟩⟩ := handle_sendDone hh hv.start_le
    · exact h
    · exact put_counted hen (h.of_lt hlt)
  | appDone =>
    obtain ⟨happ,rfl,-⟩ := handle_appDone hh
    rw [Counted] at h ⊢
    simp only
    omega
  | callbackReturns =>
    obtain ⟨rfl,-⟩ := handle_callbackReturns hh
    exact h

end Counted

@[simp] theorem put_exec (s : Rank) (r : BarrierExec × Effect) : (s.put r).exec=r.1 := by
  obtain ⟨e,eff⟩ := r
  cases eff with
  | multicast p it app => cases app <;> rfl
  | _ => rfl

@[simp] theorem put_starts (s : Rank) (r : BarrierExec × Effect) :
    (s.put r).starts=s.starts := by
  obtain ⟨e,eff⟩ := r
  cases eff with
  | multicast p it app => cases app <;> rfl
  | _ => rfl

end Rank

namespace System

section Safety

variable [DecidableEq ι] {member : ι → Prop} {cache : ι → ScheduleCache ι} {signed : Bool}
  {s s' : System ι}

/-- What holds in every state of the system. -/
structure Sound (member : ι → Prop) (cache : ι → ScheduleCache ι) (s : System ι) : Prop where
  valid : ∀ {a}, member a → (s.ranks a).Valid (cache a)
  counted : ∀ {a}, member a → (s.ranks a).Counted (cache a)
  inv : Inv member cache (fun a => (s.ranks a).exec) (fun a => (s.ranks a).starts)
    (fun a => (s.ranks a).exec.phase + 1) s.net s.got

theorem inv_update {ranks : ι → Rank} {net got : List (Msg ι)} {a : ι} {r : Rank}
    (h : Inv member cache (update (fun i => (ranks i).exec) a r.exec) (update (fun i => (ranks i).starts) a r.starts)
      (update (fun i => (ranks i).exec.phase+1) a (r.exec.phase+1)) net got) :
    Inv member cache (fun i => (update ranks a r i).exec) (fun i => (update ranks a r i).starts)
      (fun i => (update ranks a r i).exec.phase+1) net got := by
  have hmap {β : Type} (f : Rank → β) :
      (fun i => f (update ranks a r i))=update (fun i => f (ranks i)) a (f r) :=
    comp_update f ranks a r
  rw [hmap exec,hmap starts,hmap fun r => r.exec.phase+1]
  exact h

theorem inv_handle {a : ι} {ev : Event} {r : Rank} {eff : Effect} {net got : List (Msg ι)}
    (hd : Disseminates member cache) (ha : member a) (hv : (s.ranks a).Valid (cache a))
    (h : Inv member cache (fun a => (s.ranks a).exec) (fun a => (s.ranks a).starts)
      (fun a => (s.ranks a).exec.phase+1) net got)
    (hev : ∀ p b, ev ≠ .notifyRecv p b)
    (hh : (s.ranks a).handle signed (cache a) ev = some (r, eff)) :
    Inv member cache (fun i => (update s.ranks a r i).exec) (fun i => (update s.ranks a r i).starts)
      (fun i => (update s.ranks a r i).exec.phase+1)
      (net ++ messages (cache a) a r.starts eff) got := by
  apply inv_update
  have hsm (r : Rank) (he : r.exec.iteration=(s.ranks a).exec.iteration ∧
      r.exec.phasevec=(s.ranks a).exec.phasevec ∧ r.exec.phase=(s.ranks a).exec.phase)
      (hst : r.starts=(s.ranks a).starts) :
      Inv member cache (update (fun i => (s.ranks i).exec) a r.exec)
        (update (fun i => (s.ranks i).starts) a r.starts)
        (update (fun i => (s.ranks i).exec.phase+1) a (r.exec.phase+1))
        (net ++ messages (cache a) a r.starts .quiet) got := by
    have hstay : Advances signed (cache a) (s.ranks a).exec r.exec :=
      ⟨he.1,he.2.1,he.2.2.ge,he.2.2 ▸ hv.le_finish,fun p h1 h2 => by omega⟩
    have hnil : messages (cache a) a r.starts .quiet = [] := rfl
    have hnx := (h.advance hd ha hstay).keep ha
    rw [update_self] at hnx
    rw [hnil,append_nil,hst,update_eq_self]
    exact hnx
  cases ev with
  | start =>
    obtain ⟨hpha,e',rfl,hadv,hen⟩ := handle_start hh
    have hse := update_self a (BarrierExec.reset (cache a) (s.ranks a).exec)
      fun i => (s.ranks i).exec
    have hnx := (h.reset hd ha hpha).sendNext signed e' eff hd ha
    rw [hse,update_self,update_self,update_idem,update_idem] at hnx
    rw [put_exec,put_starts]
    exact hnx (Nat.zero_le _) (Nat.succ_ne_zero _) hadv hen
  | notifyRecv p b => exact absurd rfl (hev p b)
  | sendDone =>
    obtain ⟨-,⟨rfl,rfl,-⟩ | ⟨hlt,hpos,e',rfl,hadv,hen⟩⟩ := handle_sendDone hh hv.start_le
    · exact hsm _ ⟨rfl,rfl,rfl⟩ rfl
    · rw [put_exec,put_starts]
      simp only [update_eq_self]
      refine h.leave signed _ e' eff hd ha hlt hpos ?_ hadv hen
      exact ⟨rfl,rfl,rfl⟩
  | appDone =>
    obtain ⟨-,rfl,rfl⟩ := handle_appDone hh
    exact hsm _ ⟨rfl,rfl,rfl⟩ rfl
  | callbackReturns =>
    obtain ⟨rfl,rfl⟩ := handle_callbackReturns hh
    exact hsm _ ⟨rfl,rfl,rfl⟩ rfl

theorem Sound.of_handle (s1 : System ι) {a : ι} {ev : Event} {r : Rank} {eff : Effect}
    (hs : Sound member cache s) (hran : s1.ranks=s.ranks)
    (hh : (s.ranks a).handle signed (cache a) ev = some (r, eff))
    (hinv : Inv member cache (fun i => (update s.ranks a r i).exec) (fun i => (update s.ranks a r i).starts)
      (fun i => (update s.ranks a r i).exec.phase+1)
      (s1.net ++ messages (cache a) a r.starts eff) s1.got)
    (hs' : handle signed cache s1 a ev = some s') :
    Sound member cache s' := by
  rw [handle,hran,hh] at hs'
  obtain rfl := some.inj hs'
  refine ⟨?_,?_,hinv⟩
  · intro b hb
    by_cases hba : b=a
    · subst hba
      show (update s.ranks b r b).Valid (cache b)
      rw [update_self]
      exact (hs.valid hb).handle hh
    · show (update s.ranks a r b).Valid (cache b)
      rw [update_of_ne hba]
      exact hs.valid hb
  · intro b hb
    by_cases hba : b=a
    · subst hba
      show (update s.ranks b r b).Counted (cache b)
      rw [update_self]
      exact (hs.counted hb).handle (hs.valid hb) hh
    · show (update s.ranks a r b).Counted (cache b)
      rw [update_of_ne hba]
      exact hs.counted hb

theorem handle_eq_some {a : ι} {ev : Event} (h : handle signed cache s a ev = some s') :
    ∃ r eff, (s.ranks a).handle signed (cache a) ev = some (r, eff) := by
  obtain ⟨r,hr,-⟩ := Option.map_eq_some_iff.mp h
  exact ⟨r.1,r.2,hr⟩

theorem Sound.deliver (hd : Disseminates member cache) (hs : Sound member cache s) {m : Msg ι}
    (h : step signed cache s (.deliver m) = some s') : Sound member cache s' := by
  rw [step] at h
  split_ifs at h with hm
  obtain ⟨hdst,-,-⟩ := hs.inv.mem_src hd (mem_append_left s.got hm)
  obtain ⟨r,eff,hh⟩ := handle_eq_some h
  have hcou := hs.inv.count hd hm
  have hv := hs.valid hdst
  refine hs.of_handle { s with net := s.net.erase m, got := m :: s.got } rfl hh ?_ h
  apply inv_update
  rcases handle_notifyRecv hh hv.start_le with
    ⟨rfl,rfl,-⟩ | ⟨hlt,-,hpos,e',rfl,hadv,hen⟩
  · have hnil : messages (cache m.dst) m.dst (s.ranks m.dst).starts .quiet = [] := rfl
    have hnx := hcou.keep hdst
    rw [update_self] at hnx
    simp only [hnil,append_nil,update_eq_self]
    exact hnx
  · have hse := update_self m.dst
      (BarrierExec.count m.phase m.iteration (s.ranks m.dst).exec) fun i => (s.ranks i).exec
    have hnx := hcou.leave (a := m.dst) signed
      { BarrierExec.count m.phase m.iteration (s.ranks m.dst).exec with
        phase := (s.ranks m.dst).exec.phase+1 } e' eff hd hdst
    rw [hse,update_idem] at hnx
    rw [put_exec,put_starts]
    simp only [update_eq_self]
    exact hnx hlt hpos ⟨rfl,rfl,rfl⟩ hadv hen

def AtMember (member : ι → Prop) (_ : System ι) : SystemEvent ι → Prop
  | .deliver _ => True
  | .occurs a _ => member a

theorem Sound.step (hd : Disseminates member cache) (hs : Sound member cache s)
    {ev : SystemEvent ι} (hok : AtMember member s ev) (h : step signed cache s ev = some s') :
    Sound member cache s' := by
  cases ev with
  | deliver m => exact hs.deliver hd h
  | occurs a ev =>
    have hloc (hev : ∀ p b, ev ≠ .notifyRecv p b) (h : System.handle signed cache s a ev = some s') :
        Sound member cache s' := by
      obtain ⟨r,eff,hh⟩ := handle_eq_some h
      exact hs.of_handle s rfl hh (inv_handle hd hok (hs.valid hok) hs.inv hev hh) h
    cases ev with
    | notifyRecv => cases h
    | start | sendDone | appDone | callbackReturns => exact hloc nofun h

theorem init_sound {exec : ι → BarrierExec}
    (he : ∀ a, member a → setCommSchedule (cache a) = some (exec a)) :
    Sound member cache (init exec) := by
  have hex {a : ι} (ha : member a) : exec a = ⟨false,(cache a).finish,false,fun _ _ => 0⟩ := by
    have h := he a ha
    rw [setCommSchedule] at h
    split_ifs at h
    exact (some.inj h).symm
  have hhea {a : ι} {p k : ℕ} : heard cache [] a p k=0 := by
    rw [heard,countP_eq_zero]
    intro c _ hc
    exact absurd (of_decide_eq_true hc) not_mem_nil
  refine ⟨fun ha => init_valid (he _ ha),?_,?_,?_,?_,?_,?_,?_,?_,?_,?_,?_⟩
  · intro a ha
    show 0+0+(if (exec a).phase=(cache a).finish then 0 else 1)=0
    rw [hex ha,if_pos rfl]
  · intro a ha
    exact (init_valid (he a ha)).start_le
  · intro a ha
    exact (init_valid (he a ha)).le_finish
  · intro a _
    exact le_refl _
  · intro a ha hlt
    have hfin : (exec a).phase=(cache a).finish := by rw [hex ha]
    exact absurd hfin hlt.ne
  · intro a ha
    show (exec a).iteration = _
    rw [hex ha]
    rfl
  · intro a p ha _
    rw [if_pos (show ((init exec).ranks a).starts=0 from rfl)]
    show (exec a).phasevec p (bit 0) = 0-BitVec.ofNat 8 (heard cache [] a p 0)
    rw [hex ha,hhea]
    rfl
  · intro a p ha _
    show (exec a).phasevec p (bit 1) = -BitVec.ofNat 8 (heard cache [] a p 1)
    rw [hex ha,hhea]
    rfl
  · intro a p k c ha hp hk hpast _
    rcases hpast with hlt | ⟨heq,-⟩
    · exact absurd hlt (Nat.not_lt_zero _)
    · exact absurd heq hk
  · intro m hm
    exact absurd hm not_mem_nil
  · exact nodup_nil

/-- The round a rank counts a message for, now: its own one or the next one. -/
def countedFor (s : Rank) (iteration : Bool) : ℕ :=
  if iteration = s.exec.iteration then s.starts else s.starts + 1

/-- No done callback comes before all members have started the barrier, a message under way would
be counted for its round, and the counters are those of the two rounds. -/
structure Safe (member : ι → Prop) (cache : ι → ScheduleCache ι) (s : System ι) : Prop where
  dones_le : ∀ a b, member a → member b → (s.ranks a).dones ≤ (s.ranks b).starts
  counted : ∀ m ∈ s.net, countedFor (s.ranks m.dst) m.iteration = m.round
  counters : ∀ a p, member a → (cache a).Active p → ∀ iteration, (s.ranks a).exec.phasevec p iteration =
      (if iteration = (s.ranks a).exec.iteration ∧ (s.ranks a).starts ≠ 0 then
        BitVec.ofNat 8 ((cache a).srcTopology p).length else 0) -
      BitVec.ofNat 8 (heard cache s.got a p (countedFor (s.ranks a) iteration))

theorem Sound.safe (hd : Disseminates member cache) (hs : Sound member cache s) :
    Safe member cache s := by
  refine ⟨?_,?_,?_⟩
  · intro a b ha hb
    have hcou := hs.counted ha
    have hstr := hs.inv.started (k := (s.ranks a).dones) hd hb ha
    apply hstr
    rw [Rank.Counted] at hcou
    split_ifs at hcou with hfin
    · rcases Nat.lt_or_ge (s.ranks a).dones (s.ranks a).starts with hlt | hge
      · exact .inl hlt
      · exact .inr ⟨by omega,hfin⟩
    · exact .inl (by omega)
  · intro m hm
    have hmem := (hs.inv.mem_src hd (mem_append_left s.got hm)).1
    obtain ⟨-,-,-,hit,-,-⟩ := hs.inv.sent (mem_append_left s.got hm)
    rw [countedFor,hs.inv.iteration hmem,hit]
    rcases hs.inv.round_cases hd hm with hrou | hrou
    · rw [hrou,if_pos rfl]
    · rw [hrou,bit_succ,if_neg fun h => (Bool.not_eq_self _).mp h]
  · intro a p ha hp iteration
    have hit := hs.inv.iteration ha
    by_cases hnow : iteration=(s.ranks a).exec.iteration
    · rw [countedFor,if_pos hnow,hnow,hit,hs.inv.row ha hp]
      by_cases h0 : (s.ranks a).starts=0
      · rw [if_pos h0,if_neg fun h => h.2 h0]
      · rw [if_neg h0,if_pos ⟨rfl,h0⟩]
    · have hnx : iteration=bit ((s.ranks a).starts+1) := by
        rw [bit_succ,← hit]
        exact Bool.eq_not_of_ne hnow
      rw [countedFor,if_neg hnow,if_neg fun h => hnow h.1,hnx,hs.inv.next ha hp,zero_sub]

theorem run_safe (hd : Disseminates member cache) {exec : ι → BarrierExec}
    (he : ∀ a, member a → setCommSchedule (cache a) = some (exec a))
    (hrun : Run (step signed cache) (AtMember member) (init exec) s) : Safe member cache s :=
  (hrun.invariant (P := Sound member cache) (init_sound he) fun _ _ _ hs hok h => hs.step hd hok h).safe hd

end Safety

end System

open PAMI.Schedule CollectiveOperation MultinomialTree

/-- What `ScheduleCache` keeps of a multinomial tree. -/
def ScheduleCache.ofTree (t : MultinomialTree) : ScheduleCache ℕ :=
  ⟨t.context.st, t.context.np, t.getSrcTopology, t.getDstTopology⟩

/-- The schedules of a barrier; the root has no part in them. -/
def barrierCache (maxRadix : ℕ) (topology : Topology) (root e : ℕ) : ScheduleCache ℕ :=
  .ofTree (init maxRadix topology root BARRIER_OP e)

section Multinomial

variable {maxRadix root : ℕ} {topology : Topology}

theorem getLogRadix_le (radix : ℕ) : getLogRadix radix ≤ 3 := by
  unfold getLogRadix
  split_ifs
  · decide
  · decide
  · decide

theorem partnerRanks_length_le (maxRadix : ℕ) (op : CollectiveOperation) {e : ℕ} (hrt : root ∈ topology)
    (he : e ∈ topology) (parent : Bool) (p : ℕ) :
    ((init maxRadix topology root op e).partnerRanks parent p).length≤7 := by
  have hpos := Topology.size_pos hrt
  have h : Fits (init maxRadix topology root op e) (dims maxRadix hpos) op := init_fits hpos hrt he
  have hrad : 2^(dims maxRadix hpos).logradix≤2^3 := Nat.pow_le_pow_right (by decide) (getLogRadix_le _)
  rw [h.partnerRanks_eq]
  split_ifs
  · rw [bino,length_map,length_range']
    omega
  all_goals simp

theorem partners_spec {op : CollectiveOperation} {e : ℕ} (hrt : root ∈ topology)
    (he : e ∈ topology) (parent : Bool) (p : ℕ) :
    (((init maxRadix topology root op e).partnerRanks parent p).map
        (init maxRadix topology root op e).map.getGlobalRank).Nodup ∧
      ∀ b ∈ ((init maxRadix topology root op e).partnerRanks parent p).map
        (init maxRadix topology root op e).map.getGlobalRank, b ∈ topology := by
  have hpos := Topology.size_pos hrt
  have h : Fits (init maxRadix topology root op e) (dims maxRadix hpos) op := init_fits hpos hrt he
  obtain ⟨hnd,hlt⟩ := h.partnerRanks_spec parent p
  rw [init_map] at *
  refine ⟨getGlobalRank_nodup (rootIndex_lt hrt) hnd fun b hb => (hlt b hb).1,?_⟩
  intro b hb
  obtain ⟨r,hr,rfl⟩ := List.mem_map.mp hb
  exact TopologyMap.getGlobalRank_mem (rootIndex_lt hrt) (hlt r hr).1

theorem multinomial_disseminates (hrt : root ∈ topology) :
    Disseminates (· ∈ topology) (barrierCache maxRadix topology root) := by
  refine ⟨?_,?_,?_,?_,?_,?_,?_⟩
  · intro a b p ha _ hb
    exact (partners_spec hrt ha false p).2 b hb
  · intro a b p hb _ ha
    exact (partners_spec hrt hb true p).2 a ha
  · intro a b p ha hb
    have hmat := match_of_active
      (show Supported maxRadix topology BARRIER_OP from .inl rfl) hrt ha hb p
    rw [← mem_getDstTopology hrt ha hb,← mem_getSrcTopology hrt hb ha] at hmat
    exact hmat
  · intro a p ha _
    exact (partners_spec hrt ha true p).1
  · intro a p ha _
    exact (partners_spec hrt ha false p).1
  · intro a p ha _
    have hlen := partnerRanks_length_le maxRadix BARRIER_OP hrt ha true p
    show (((init maxRadix topology root BARRIER_OP a).srcRanks p).map _).length≤127
    rw [length_map]
    exact le_trans hlen (by decide)
  · intro a b ha hb
    have hall : Reaches (received maxRadix topology root BARRIER_OP) _ a b := barrier_execute hrt ha hb
    refine ⟨_,hall.imp ?_⟩
    intro q e c hc
    rw [received] at hc
    split_ifs at hc with hact
    · have hact' : (barrierCache maxRadix topology root e).Active q := hact
      rw [activeSources,if_pos hact']
      exact mem_of_mem_filter hc
    · exact absurd hc not_mem_nil

/-- The barrier of the multinomial schedule is safe in every run: no done callback comes before all ranks have started that
barrier, and every message is counted for its own barrier. -/
theorem multinomial_barrier_safe (signed : Bool) (hrt : root ∈ topology) {exec : ℕ → BarrierExec}
    (he : ∀ a ∈ topology, BarrierExec.setCommSchedule (barrierCache maxRadix topology root a) = some (exec a))
    {s : System ℕ}
    (hrun : Run (System.step signed (barrierCache maxRadix topology root))
      (System.AtMember (· ∈ topology)) (System.init exec) s) :
    System.Safe (· ∈ topology) (barrierCache maxRadix topology root) s :=
  System.run_safe (multinomial_disseminates hrt) he hrun

theorem multinomial_barrier_safe_two :
    ∃ s, Run (System.step true (barrierCache 2 (firstEndpoints 2) 0))
        (System.AtMember (· ∈ firstEndpoints 2))
        (System.init fun a => ⟨false, (barrierCache 2 (firstEndpoints 2) 0 a).finish, false, fun _ _ => 0⟩) s ∧
      (s.ranks 0).dones = 1 ∧ (s.ranks 1).dones = 1 ∧
      System.Safe (· ∈ firstEndpoints 2) (barrierCache 2 (firstEndpoints 2) 0) s := by
  have hle : ∀ a ∈ firstEndpoints 2, (barrierCache 2 (firstEndpoints 2) 0 a).finish ≤ maxPhases := by decide
  have hrun : ∃ s, Run (System.step true (barrierCache 2 (firstEndpoints 2) 0))
      (System.AtMember (· ∈ firstEndpoints 2))
      (System.init fun a => ⟨false,(barrierCache 2 (firstEndpoints 2) 0 a).finish,false,
        fun _ _ => 0⟩) s ∧ (s.ranks 0).dones=1 ∧ (s.ranks 1).dones=1 := by
    refine ⟨_,Run.execEvents .refl [.occurs 0 .start,.deliver ⟨0,1,1,true,1⟩,
      .occurs 1 .start,.occurs 0 .sendDone,.deliver ⟨1,0,1,true,1⟩,
      .occurs 1 .appDone] ?_ rfl,rfl,rfl⟩
    intro s ev hev
    simp only [mem_cons,not_mem_nil,or_false] at hev
    rcases hev with rfl | rfl | rfl | rfl | rfl | rfl <;>
      simp only [System.AtMember] <;> decide
  obtain ⟨s,hs,h0,h1⟩ := hrun
  exact ⟨s,hs,h0,h1,multinomial_barrier_safe true (by decide) (fun a ha => if_pos (hle a ha)) hs⟩

end Multinomial

end PAMI.Executor
