import PAMI.TspColl.ExchangeRefinement

namespace PAMI.TspColl

open PAMI.Math PhasedState Function PhaseMessage CollExchange Option Nat

namespace Exchanges

variable {ι α μ : Type*} [DecidableEq ι] {T : PhaseTables ι} {C : PhaseClient ι α μ}
  {c : Network ι α μ} {data : ι → α} {s s' : Exchanges ι α μ} {r a b : ι}
  {n p : ℕ} {m : PhaseMessage μ} {e : ExchangeEvent ι}

structure Exchanging (T : PhaseTables ι) (C : PhaseClient ι α μ)
    (c : Network ι α μ) (data : ι → α) (s : Exchanges ι α μ) : Prop
    extends Refines T C c data s where
  settled : ∀ r, Settled T r (s.rank r)

theorem exchanging_new : Exchanging T C c data (new T data) :=
  ⟨refines_new,fun _ => ⟨fun _ => rfl,fun h => absurd h (lt_irrefl _),fun h => absurd h (lt_irrefl _)⟩⟩

theorem rank_kick_of_ne (hne : b≠r) : (s.kick T C r).rank b = s.rank b :=
  (congrFun (rank_after s r _) b).trans (update_of_ne hne _ _)

theorem rank_setRank_of_ne {x : CollExchange α} (hne : b≠r) : (s.setRank r x).rank b = s.rank b :=
  update_of_ne hne _ _

theorem settled_kick (h : ∀ b, b≠r → Settled T b (s.rank b))
    (hr : Settled T r ((s.kick T C r).rank r)) (b : ι) :
    Settled T b ((s.kick T C r).rank b) := by
  by_cases heq : b=r
  · subst heq
    exact hr
  · rw [rank_kick_of_ne heq]
    exact h b heq

theorem Exchanging.start (h : Exchanging T C c data s) (hs : s.start T C r = some s') :
    Exchanging T C c data s' ∧ ∀ a n p, s'.counted T a n p = s.counted T a n p := by
  obtain ⟨hdn,rfl⟩ := ite_some_none_eq_some.mp hs
  have hdn : T.numphases r≤(s.rank r).phase ∧ T.numphases r≤(s.rank r).sendcomplete := by
    rw [CollExchange.isdone,Bool.and_eq_true,decide_eq_true_iff,decide_eq_true_iff] at hdn
    exact hdn
  have hr := h.counts r
  have hcos : Counts T s r ((s.rank r).reset (C.start r ((s.rank r).counter+1) (s.rank r).data)) := by
    refine ⟨hr.failed,zero_le _,fun hzr => absurd hzr (succ_ne_zero _),fun hend => ?_,
      fun _ => .inl ⟨rfl,rfl⟩,fun n p hn hp hnn => ?_,?_,?_⟩
    · exact (le_zero.mp hend).symm
    · have hfir := hr.first
      refine (hr.unsourced n p hn hp hnn).trans ?_
      simp only [CollExchange.reset]
      omega
    · refine hr.postrcvs.trans ?_
      rw [min_eq_right hdn.1]
      simp [CollExchange.reset,postLog]
    · refine hr.completions.trans ?_
      have heed := (h.settled r).ended
      have hle := hr.phase_le
      have hcou : (if (s.rank r).phase=T.numphases r+1 then (s.rank r).counter
          else (s.rank r).counter-1)=(s.rank r).counter := by
        split
        case isTrue => rfl
        case isFalse hne => rw [heed (by omega)]
      rw [hcou]
      exact congrArg (List.range' 1) (if_neg (succ_ne_zero _).symm).symm
  have hres : Refines T C c data (s.setRank r ((s.rank r).reset
      (C.start r ((s.rank r).counter+1) (s.rank r).data))) := by
    refine h.setRank hcos (e := .reset r) trivial ?_
    refine (if_pos (le_min hdn.1 le_rfl)).trans (congrArg some ?_)
    rw [phased_setRank fun a n p => counted_setRank (by rfl) a n p]
    have hbeg : decide (0<T.numphases r ∧ 0<0)=false := by simp
    ext1
    · rfl
    · exact congrArg (update _ r) (Nat.zero_min _).symm
    · exact congrArg (update _ r) hbeg.symm
    · rfl
    · rfl
  obtain ⟨hfol,hstt⟩ := hres.kick (r := r) (by rw [rank_setRank]; exact succ_pos _)
  refine ⟨⟨hfol.refines,settled_kick (fun b hb => ?_) hstt⟩,fun a n p => ?_⟩
  · rw [rank_setRank_of_ne hb]
    exact h.settled b
  · exact (hfol.counted a n p).trans (counted_setRank (by rfl) a n p)

theorem Exchanging.transmit (h : Exchanging T C c data s) (hs : s.transmit C a n p = some s') :
    Exchanging T C c data s' ∧ ∀ a n p, s'.counted T a n p = s.counted T a n p := by
  obtain ⟨hgua,rfl⟩ := ite_some_none_eq_some.mp hs
  refine ⟨⟨⟨fun b => (h.counts b).setMessage rfl,h.run.step (e := .transmit a n p) trivial ?_⟩,
    h.settled⟩,fun _ _ _ => rfl⟩
  rw [phased_setMessage]
  exact if_pos hgua

theorem Refines.at_phase (h : Refines T C c data s) (hda : (s.message a n p).data.isSome)
    (hsn : (s.message a n p).sent=false) :
    n=(s.rank a).counter ∧ p=(s.rank a).phase ∧ (s.rank a).phase < T.numphases a ∧
      (s.rank a).phase<(s.rank a).sendstarted ∧ (T.dest a n p).isSome=true := by
  have htim := h.timely
  obtain ⟨hds,hbeg⟩ := (htim.posted a n p).mp ((htim.ordered a n p).data hda)
  obtain hpas | ⟨-,hn,hp,hb⟩ := hbeg
  · exact absurd (hsn.symm.trans (htim.sent a n p hpas hds)) (by decide)
  · simp only [phased,decide_eq_true_iff] at hn hp hb
    exact ⟨hn,hp.trans (min_eq_left hb.1.le),hb.1,hb.2,hds⟩

theorem message_setMessage_of_ne (hne : b≠a) : (s.setMessage a n p m).message b = s.message b := by
  funext n' p'
  exact if_neg fun h => hne h.1

theorem message_setMessage (s : Exchanges ι α μ) (a : ι) (n p : ℕ) (m : PhaseMessage μ) :
    (s.setMessage a n p m).message a n p = m := if_pos ⟨rfl,rfl,rfl⟩

theorem Exchanging.senddone (h : Exchanging T C c data s) (hs : s.senddone T C a n p = some s') :
    Exchanging T C c data s' ∧ ∀ a n p, s'.counted T a n p = s.counted T a n p := by
  obtain ⟨⟨hda,hfal⟩,rfl⟩ := ite_some_none_eq_some.mp hs
  obtain ⟨rfl,rfl,hlt,hstr,hds⟩ := h.at_phase hda hfal
  have ha := h.counts a
  have hsm : ∀ x : CollExchange α, x.recvcomplete=(s.rank a).recvcomplete → ∀ m a' n' p',
      ((s.setMessage a (s.rank a).counter (s.rank a).phase m).setRank a x).counted T a' n' p' =
        s.counted T a' n' p' := fun x hx m a' n' p' => counted_setRank (by exact hx) a' n' p'
  have hsn : Refines T C c data ((s.setMessage a (s.rank a).counter (s.rank a).phase
      { s.message a (s.rank a).counter (s.rank a).phase with sent := true }).setRank a
        { s.rank a with sendcomplete := (s.rank a).sendcomplete+1 }) := by
    refine ⟨fun b => ?_,h.run.step (e := .sent a (s.rank a).counter (s.rank a).phase) trivial ?_⟩
    · by_cases hb : b=a
      · subst hb
        rw [rank_setRank]
        refine ⟨ha.failed,ha.phase_le,ha.first,fun hend => absurd hlt (not_lt.mpr hend),
          fun _ => .inr ?_,ha.unsourced,ha.postrcvs,ha.completions⟩
        obtain ⟨hnn,-⟩ | ⟨hone,hsum⟩ := ha.sends hlt
        · omega
        · refine ⟨hone,?_⟩
          rw [if_pos hds,hfal] at hsum
          simp only [hsum,hds,if_true,Exchanges.setRank,message_setMessage]
          rfl
      · have hb' := h.counts b
        rw [rank_setRank_of_ne hb]
        refine ⟨hb'.failed,hb'.phase_le,hb'.first,hb'.ended,?_,hb'.unsourced,hb'.postrcvs,hb'.completions⟩
        simp only [Exchanges.setRank,message_setMessage_of_ne hb]
        exact hb'.sends
    · refine (if_pos ⟨hda,hfal⟩).trans (congrArg some ?_)
      rw [phased_setRank fun a' n' p' => counted_setRank (by rfl) a' n' p',phased_setMessage]
      ext1
      · exact (update_eq_self a _).symm
      · exact (update_eq_self a _).symm
      · exact (update_eq_self a _).symm
      · exact (update_eq_self a _).symm
      · rfl
  have hpos := h.counter_pos hlt
  obtain ⟨hfol,hstt⟩ := hsn.kick (r := a) (by rw [rank_setRank]; exact hpos)
  refine ⟨⟨hfol.refines,settled_kick (fun b hb => ?_) hstt⟩,fun a' n' p' => ?_⟩
  · rw [rank_setRank_of_ne hb]
    exact h.settled b
  · exact (hfol.counted a' n' p').trans (hsm _ (by rfl) _ a' n' p')

theorem Exchanging.incoming (h : Exchanging T C c data s) (hs : s.incoming T C a n p = some s')
    (hc : c.incoming (s.phased T) a n p) :
    Exchanging T C c data s' ∧ ∀ a n p, s'.counted T a n p = s.counted T a n p := by
  obtain ⟨hfre,hs⟩ := ite_none_left_eq_some.mp hs
  obtain ⟨b,hb,hs⟩ := bind_eq_some_iff.mp hs
  obtain ⟨x,hx,rfl⟩ := map_eq_some_iff.mp hs
  have hb : T.dest a n p = some b := hb
  have hmes : ∀ r, Counts T (s.setMessage a n p { s.message a n p with incoming := true }) r
      (s.rank r) := fun r => (h.counts r).setMessage rfl
  refine ⟨⟨⟨counts_setRank hmes ?_,h.run.step (e := .incoming a n p) hc ?_⟩,fun r => ?_⟩,
    fun _ _ _ => counted_setRank (by rfl) _ _ _⟩
  · have hnow := hmes b
    exact ⟨hnow.failed,hnow.phase_le,hnow.first,hnow.ended,hnow.sends,hnow.unsourced,
      hnow.postrcvs,hnow.completions⟩
  · have hsp : (s.phased T).incoming T C a n p=some
        (((s.phased T).setMessage a n p { (s.phased T).message a n p with incoming := true }).setData b
          (C.deliver b n p x ((s.phased T).data b))) := by
      refine (if_neg hfre).trans ?_
      rw [hb,bind_some]
      exact congrArg (Option.map _) hx
    refine hsp.trans (congrArg some ?_)
    rw [phased_setRank fun a' n' p' => counted_setRank (by rfl) a' n' p',phased_setMessage]
    ext1
    · exact (update_eq_self b _).symm
    · exact (update_eq_self b _).symm
    · exact (update_eq_self b _).symm
    · rfl
    · rfl
  · by_cases hr : r=b
    · subst hr
      rw [rank_setRank]
      exact ⟨(h.settled r).ended,(h.settled r).started,(h.settled r).waits⟩
    · rw [rank_setRank_of_ne hr]
      exact h.settled r

theorem counted_incRecvcomplete (hds : T.dest a ((s.rank b).recvcomplete p+1) p = some b) (a1 : ι)
    (n1 p1 : ℕ) {d : ι} {n : ℕ} :
    ((s.setMessage d n p m).setRank b ((s.rank b).incRecvcomplete p)).counted T a1 n1 p1 = (s.counted T a1 n1 p1 ||
        decide (a1=a ∧ n1 = (s.rank b).recvcomplete p+1 ∧ p1=p)) := by
  cases hds1 : T.dest a1 n1 p1 with
  | none =>
    have hne : ¬ (a1=a ∧ n1=(s.rank b).recvcomplete p+1 ∧ p1=p) := by
      rintro ⟨rfl,rfl,rfl⟩
      rw [hds] at hds1
      contradiction
    simp only [counted,hds1,any_none,hne,decide_false,Bool.or_false]
  | some b1 =>
    rw [Bool.eq_iff_iff,Bool.or_eq_true,counted_iff hds1,counted_iff hds1,decide_eq_true_iff]
    by_cases hb : b1=b
    · subst hb
      rw [rank_setRank]
      by_cases hp : p1=p
      · subst hp
        simp only [incRecvcomplete,update_self,and_true]
        have hsm : n1=(s.rank b1).recvcomplete p1+1 → a1=a := by
          rintro rfl
          exact some.inj (((T.matched _ _ _ _).mp hds1).symm.trans ((T.matched _ _ _ _).mp hds))
        constructor
        · rintro ⟨hn,hle⟩
          obtain hlt | heq := lt_or_eq_of_le hle
          · exact .inl ⟨hn,le_of_lt_succ hlt⟩
          · exact .inr ⟨hsm heq,heq⟩
        · rintro (⟨hn,hle⟩ | ⟨-,rfl⟩)
          · exact ⟨hn,hle.trans (le_succ _)⟩
          · exact ⟨succ_pos _,le_rfl⟩
      · simp only [incRecvcomplete,update_of_ne hp,hp,and_false,or_false]
    · rw [rank_setRank_of_ne hb]
      refine (or_iff_left ?_).symm
      rintro ⟨rfl,rfl,rfl⟩
      exact hb (some.inj (hds1.symm.trans hds))

theorem message_complete (s : Exchanges ι α μ) (a : ι) (n p : ℕ) (x : Bool) (a1 : ι) (n1 p1 : ℕ) :
    { (s.setMessage a n p { s.message a n p with complete := true }).message a1 n1 p1 with
      complete := x } = { s.message a1 n1 p1 with complete := x } := by
  simp only [Exchanges.setMessage]
  split
  case isTrue heq =>
    obtain ⟨rfl,rfl,rfl⟩ := heq
    rfl
  case isFalse => rfl

theorem Exchanging.recvcomplete (h : Exchanging T C c data s) (hs : s.recvcomplete T C a n p = some s')
    (hb : T.dest a n p = some b) {a' : ι} (hds : T.dest a' ((s.rank b).recvcomplete p+1) p = some b)
    (hda : (s.message a' ((s.rank b).recvcomplete p+1) p).data.isSome)
    (hc : c.complete (s.phased T) a' ((s.rank b).recvcomplete p+1) p) :
    Exchanging T C c data s' ∧ ∀ a1 n1 p1, s'.counted T a1 n1 p1 = (s.counted T a1 n1 p1 ||
      decide (a1=a' ∧ n1 = (s.rank b).recvcomplete p+1 ∧ p1=p)) := by
  obtain ⟨-,hs⟩ := ite_none_right_eq_some.mp hs
  rw [show (matching T).dest a n p = some b from hb,map_some] at hs
  have hs := some.inj hs
  have hr := h.counts b
  have hctd := counted_incRecvcomplete (s := s) (m := { s.message a n p with complete := true })
    hds (d := a) (n := n)
  have hsou := (T.matched a' b _ p).mp hds
  have hmes : ∀ r, Counts T (s.setMessage a n p { s.message a n p with complete := true }) r
      (s.rank r) := fun r => (h.counts r).setMessage rfl
  have hcou : Refines T C c data
      ((s.setMessage a n p { s.message a n p with complete := true }).setRank b ((s.rank b).incRecvcomplete p)) := by
    refine ⟨counts_setRank hmes ?_,h.run.step (e := .complete a' ((s.rank b).recvcomplete p+1) p) hc ?_⟩
    · have hnow := hmes b
      refine ⟨hnow.failed,hnow.phase_le,hnow.first,hnow.ended,hnow.sends,
        fun n1 p1 hn hp hnn => ?_,hnow.postrcvs,hnow.completions⟩
      refine Iff.trans ?_ (hr.unsourced n1 p1 hn hp hnn)
      by_cases heq : p1=p
      · subst heq
        simp only [incRecvcomplete,update_self]
        have hne : n1≠(s.rank b).recvcomplete p1+1 := by
          rintro rfl
          rw [hsou] at hnn
          contradiction
        omega
      · simp only [incRecvcomplete,update_of_ne heq]
    · have hnew : s.counted T a' ((s.rank b).recvcomplete p+1) p=false := by
        rw [← Bool.not_eq_true,counted_iff hds]
        omega
      refine (if_pos ⟨hda,hnew⟩).trans (congrArg some ?_)
      ext1
      case message =>
        funext a1 n1 p1
        refine Eq.trans ?_ (message_complete s a n p _ a1 n1 p1).symm
        rw [hctd]
        simp only [PhasedState.setMessage]
        split
        case isTrue heq =>
          obtain ⟨rfl,rfl,rfl⟩ := heq
          simp [phased]
        case isFalse hne => simp [phased,hne]
      all_goals
        funext r
        simp only [phased,PhasedState.setMessage,Exchanges.setRank,update_apply]
        split
        case isTrue heq => subst heq; rfl
        case isFalse => rfl
  have hoth : ∀ r, r≠b → Settled T r
      (((s.setMessage a n p { s.message a n p with complete := true }).setRank b
        ((s.rank b).incRecvcomplete p)).rank r) := by
    intro r hne
    rw [rank_setRank_of_ne hne]
    exact h.settled r
  simp only at hs
  split at hs
  case isTrue hle =>
    subst hs
    simp only [incRecvcomplete,update_self] at hle
    obtain ⟨hfol,hstt⟩ := hcou.kick (r := b) (by rw [rank_setRank]; exact (succ_pos _).trans_le hle)
    exact ⟨⟨hfol.refines,settled_kick hoth hstt⟩,fun a1 n1 p1 => (hfol.counted a1 n1 p1).trans (hctd a1 n1 p1)⟩
  case isFalse hlt =>
    subst hs
    simp only [incRecvcomplete,update_self,not_le] at hlt
    refine ⟨⟨hcou,fun r => ?_⟩,hctd⟩
    by_cases hrb : r=b
    · subst hrb
      rw [rank_setRank]
      refine ⟨(h.settled r).ended,(h.settled r).started,fun hpha => ?_⟩
      refine ((h.settled r).waits hpha).imp_right (And.imp_right fun hwai => ?_)
      have hne : (s.rank r).phase≠p := by
        rintro rfl
        omega
      simp only [incRecvcomplete,update_of_ne hne]
      exact hwai
    · exact hoth r hrb

/-- The network lets a message come in; and the receive that completes counts as one of a message that it lets
be received. -/
def Fits (T : PhaseTables ι) (c : Network ι α μ) (s : Exchanges ι α μ) :
    ExchangeEvent ι → Prop
  | .incoming a n p => c.incoming (s.phased T) a n p
  | .recvcomplete a n p => ∀ b, T.dest a n p = some b → ∃ a',
      T.dest a' ((s.rank b).recvcomplete p + 1) p = some b ∧
        (s.message a' ((s.rank b).recvcomplete p + 1) p).data.isSome ∧
        c.complete (s.phased T) a' ((s.rank b).recvcomplete p + 1) p
  | _ => True

theorem Exchanging.step (h : Exchanging T C c data s) (hft : s.Fits T c e) (hs : s.step T C e = some s') :
    Exchanging T C c data s' := by
  cases e with
  | start r => exact (h.start hs).1
  | transmit a n p => exact (h.transmit hs).1
  | senddone a n p => exact (h.senddone hs).1
  | incoming a n p => exact (h.incoming hs hft).1
  | recvcomplete a n p =>
    have hds : (T.dest a n p).isSome := by
      obtain ⟨-,hs⟩ := ite_none_right_eq_some.mp hs
      obtain ⟨b,hb,-⟩ := map_eq_some_iff.mp hs
      exact isSome_of_eq_some hb
    obtain ⟨b,hb⟩ := isSome_iff_exists.mp hds
    obtain ⟨a',hds',hda,hc⟩ := hft b hb
    exact (h.recvcomplete hs hb hds' hda hc).1

theorem apply_setMessage {β : Type*} (f : PhaseMessage μ → β) (hm : f m = f (s.message a n p)) (a' : ι)
    (n' p' : ℕ) : f ((s.setMessage a n p m).message a' n' p') = f (s.message a' n' p') := by
  simp only [Exchanges.setMessage]
  split
  case isTrue heq =>
    obtain ⟨rfl,rfl,rfl⟩ := heq
    exact hm
  case isFalse => rfl

theorem apply_kick {β : Type*} (f : PhaseMessage μ → β)
    (hf : ∀ m b, f { m with posted := b } = f m) (a : ι) (n p : ℕ) :
    f ((s.kick T C r).message a n p) = f (s.message a n p) := by
  have haft : ∀ k, f ((s.after r k).message a n p) = f (s.message a n p) := by
    intro k
    rw [after]
    split
    case isTrue =>
      refine (apply_setMessage (s := s.setRank r k.1) f ?_ a n p).trans rfl
      exact hf _ _
    case isFalse => rfl
  exact haft _

/-- What changes when the receive of a message completes: it is marked, and its receiver counts one. -/
structure Receives (T : PhaseTables ι) (s s' : Exchanges ι α μ) (a : ι) (n p : ℕ) (b a' : ι) : Prop where
  dest : T.dest a n p = some b
  incoming : (s.message a n p).incoming = true
  fresh : (s.message a n p).complete = false
  counts : T.dest a' ((s.rank b).recvcomplete p + 1) p = some b
  counted : ∀ a1 n1 p1, s'.counted T a1 n1 p1 = (s.counted T a1 n1 p1 ||
    decide (a1 = a' ∧ n1 = (s.rank b).recvcomplete p + 1 ∧ p1 = p))
  complete : ∀ a1 n1 p1, (s'.message a1 n1 p1).complete =
    ((s.message a1 n1 p1).complete || decide (a1 = a ∧ n1 = n ∧ p1 = p))

theorem Exchanging.receives (h : Exchanging T C c data s) (hs : s.recvcomplete T C a n p = some s')
    (hft : s.Fits T c (.recvcomplete a n p)) :
    ∃ b a', Receives T s s' a n p b a' ∧
      ∀ a1 n1 p1, (s'.message a1 n1 p1).incoming=(s.message a1 n1 p1).incoming := by
  obtain ⟨b,hb⟩ : ∃ b, T.dest a n p = some b := by
    obtain ⟨-,hs⟩ := ite_none_right_eq_some.mp hs
    obtain ⟨b,hb,-⟩ := map_eq_some_iff.mp hs
    exact ⟨b,hb⟩
  obtain ⟨a',hcos,hda,hc⟩ := hft b hb
  have hctd := (h.recvcomplete hs hb hcos hda hc).2
  obtain ⟨⟨hinc,hfre⟩,hs⟩ := ite_none_right_eq_some.mp hs
  rw [show (matching T).dest a n p = some b from hb,map_some] at hs
  have hmes : ∀ f : PhaseMessage μ → Bool, (∀ m b, f { m with posted := b } = f m) →
      ∀ a' n' p', f (s'.message a' n' p') =
        f ((s.setMessage a n p { s.message a n p with complete := true }).message a' n' p') := by
    intro f hf a' n' p'
    obtain rfl := some.inj hs
    simp only
    split
    · exact apply_kick f hf a' n' p'
    · rfl
  refine ⟨b,a',⟨hb,hinc,hfre,hcos,hctd,fun a1 n1 p1 => ?_⟩,fun a1 n1 p1 => ?_⟩
  · rw [hmes PhaseMessage.complete fun _ _ => rfl]
    simp only [Exchanges.setMessage]
    split
    case isTrue heq => simp [heq]
    case isFalse hne => simp [hne]
  · rw [hmes PhaseMessage.incoming fun _ _ => rfl]
    exact apply_setMessage PhaseMessage.incoming (by rfl) a1 n1 p1

theorem Exchanging.step_counts (h : Exchanging T C c data s) (hft : s.Fits T c e)
    (hs : s.step T C e = some s') :
    (∀ a n p, (s.message a n p).incoming=true → (s'.message a n p).incoming=true) ∧
      ((∀ a n p, s'.counted T a n p = s.counted T a n p ∧ (s'.message a n p).complete=(s.message a n p).complete) ∨
        ∃ a n p b a', e = .recvcomplete a n p ∧ Receives T s s' a n p b a') := by
  cases e with
  | start r =>
    have hctd := (h.start hs).2
    obtain ⟨-,rfl⟩ := ite_some_none_eq_some.mp hs
    refine ⟨fun a n p hc => ?_,.inl fun a n p => ⟨hctd a n p,?_⟩⟩
    · exact (apply_kick PhaseMessage.incoming (fun _ _ => rfl) a n p).trans hc
    · exact apply_kick complete (fun _ _ => rfl) a n p
  | transmit a n p =>
    have hctd := (h.transmit hs).2
    obtain ⟨-,rfl⟩ := ite_some_none_eq_some.mp hs
    refine ⟨fun a' n' p' hc => ?_,.inl fun a' n' p' => ⟨hctd a' n' p',?_⟩⟩
    · exact (apply_setMessage PhaseMessage.incoming (by rfl) a' n' p').trans hc
    · exact apply_setMessage complete (by rfl) a' n' p'
  | senddone a n p =>
    have hctd := (h.senddone hs).2
    obtain ⟨-,rfl⟩ := ite_some_none_eq_some.mp hs
    refine ⟨fun a' n' p' hc => ?_,.inl fun a' n' p' => ⟨hctd a' n' p',?_⟩⟩
    · rw [apply_kick PhaseMessage.incoming (fun _ _ => rfl) a' n' p']
      exact (apply_setMessage PhaseMessage.incoming (by rfl) a' n' p').trans hc
    · rw [apply_kick complete (fun _ _ => rfl) a' n' p']
      exact apply_setMessage complete (by rfl) a' n' p'
  | incoming a n p =>
    have hctd := (h.incoming hs hft).2
    obtain ⟨-,hs⟩ := ite_none_left_eq_some.mp hs
    obtain ⟨b,-,hs⟩ := bind_eq_some_iff.mp hs
    obtain ⟨x,-,rfl⟩ := map_eq_some_iff.mp hs
    refine ⟨fun a' n' p' hc => ?_,.inl fun a' n' p' => ⟨hctd a' n' p',?_⟩⟩
    · simp only [Exchanges.setRank,Exchanges.setMessage]
      split
      case isTrue => rfl
      case isFalse => exact hc
    · exact apply_setMessage complete (by rfl) a' n' p'
  | recvcomplete a n p =>
    obtain ⟨b,a',hrec,hinc⟩ := h.receives hs hft
    exact ⟨fun a1 n1 p1 hc => (hinc a1 n1 p1).trans hc,.inr ⟨a,n,p,b,a',rfl,hrec⟩⟩

end Exchanges

end PAMI.TspColl
