import PAMI.Executor.GatherSteps

namespace PAMI.Executor

open PAMI.Math PAMI.Schedule GenericTreeSchedule GatherExec Function GatherSchedule GatherMessage List Option

namespace GatherTree

variable {V : Type*} {t : Topology} {root : ℕ} {S : ℕ → GatherSchedule} {A : GatherTree t root S}
  {c : ℕ → GatherCall V} {vec : Option GatherVectors} {e q d : ℕ} {x : GatherExec V} {m m' : ℕ → GatherMessage V}

section Counting

variable (hfit : A.Fitting c vec) (hrt : root ∈ t) (he : e ∈ t)

include hfit hrt he

theorem Stored.full (h : A.Stored c vec e x m)
    (hord : ∀ q < A.degree e, (m (A.child e q)).complete=true → (m (A.child e q)).arrived=true)
    (hpen : A.pending c x m e = 0) (hd : d ∈ A.ranks e) (hne : d≠e) (hapa : Apart t vec d) :
    Holds t root c vec x e d := by
  obtain ⟨hmem,hlow,hhg⟩ := (A.mem_ranks hrt he).mp hd
  have hlt : place t root e < place t root d := by
    refine lt_of_le_of_ne hlow fun heq => hne ?_
    rw [← endpointAt_place hrt hmem,← heq,endpointAt_place hrt he]
  obtain ⟨q,hq,hin⟩ := A.cover e he _ hlt hhg
  have hchi := A.child_mem e he q hq
  have hran := (A.mem_ranks hrt hchi).mpr ⟨hmem,hin.1,hin.2⟩
  by_cases hcou : (c (A.child e q)).count=0
  · -- nothing is sent of an empty block
    have hlen := (hfit.ranks_len hrt hchi (A.child_ne_root hrt he hq) hran).trans
      ((hfit.zero _ hchi).mpr hcou)
    rw [Holds,block,hlen,readBytes_zero,readBytes_zero]
  · exact h.held q hq (hord q hq (((A.pending_eq_zero he).mp hpen).2 q hq hcou)) d hran hapa

theorem RankOk.payload (h : A.RankOk c vec e x m)
    (hord : ∀ q < A.degree e, (m (A.child e q)).complete=true → (m (A.child e q)).arrived=true)
    (hpst : x.posted=true) : x.payload (S e) (c e) = A.collected c e := by
  obtain ⟨hne,hexp,hpen⟩ := h.posted.mp hpst
  obtain ⟨b,hb,k,hk,hkth⟩ := A.exists_parent e he hne
  have hphs := A.mynphases e he
  rw [if_neg hne] at hphs
  have hlen : x.totallen*x.bufcnt*(c e).ssize=A.size e*blockLen c e := by
    rw [(h.link b hb k hk hkth).2,h.bufcnt,expected_of_ne hne,mul_assoc]
    rfl
  rw [GatherExec.payload,hlen,collected,ranks,flatMap_map]
  by_cases hdeg : 0<A.degree e
  · have hvec : vec=none := by
      obtain hvec | ⟨-,-,heq⟩ := hfit.cases he hdeg
      · exact hvec
      · exact absurd heq hne
    rw [if_pos (by omega),readBytes_mul]
    refine flatMap_congr fun j hj => ?_
    have hj := mem_range.mp hj
    have hbou := A.bound e he
    have hpla : place t root (endpointAt t root (place t root e+j)) = place t root e+j :=
      place_endpointAt hrt (by omega)
    have hmem : endpointAt t root (place t root e+j) ∈ t := endpointAt_mem hrt (by omega)
    have hran := (A.mem_ranks hrt he).mpr ⟨hmem,by omega,by omega⟩
    have hhol : Holds t root c vec x e (endpointAt t root (place t root e+j)) := by
      by_cases heq : endpointAt t root (place t root e+j)=e
      · rw [heq]
        exact h.own ((A.pending_eq_zero he).mp hpen).1 hexp hne hdeg
      · refine h.toStored.full hfit hrt he hord hpen hran heq ?_
        rw [hvec]
        exact fun v hv => by contradiction
    rw [Holds,memory,slot,vectors_of_ne vec hne,hpla,Nat.add_sub_cancel_left,(hfit.equal hvec _ hmem).1] at hhol
    rw [zero_add,(hfit.equal hvec e he).1]
    exact hhol
  · rw [if_neg (by omega),A.size_leaf he (by omega),one_mul,range_one,flatMap_singleton,add_zero,
      endpointAt_place hrt he]
    rfl

omit he in
theorem Stored.rotate (h : A.Stored c vec root x m) (hvec : vec=none)
    (hord : ∀ q < A.degree root, (m (A.child root q)).complete=true → (m (A.child root q)).arrived=true)
    (hexp : expected t root c vec root ≠ 0) (hpen : A.pending c x m root = 0) (hd : d ∈ t) :
    readBytes (rotate t root root (c root) x) (target t root c vec d) (blockLen c d) = block c d := by
  have hlen := fun d hd => (hfit.equal hvec d hd).1
  have hapa : ∀ d, Apart t vec d := by
    subst hvec
    exact fun d v hv => by contradiction
  have htar : ∀ d, target t root c vec d = t.endpoint2Index d*blockLen c root := by
    subst hvec
    exact fun d => rfl
  rw [htar,hlen d hd]
  refine rotate_spec hrt ?_ ?_ (fun d hd hne => ?_) hd
  · rw [h.bufcnt,expected_of_none hvec,(hfit.equal hvec root hrt).2]
  · have hown := h.ownRoot ((A.pending_eq_zero hrt).mp hpen).1 hexp rfl (hapa root)
    rwa [htar] at hown
  · have hran : d ∈ A.ranks root := by
      rw [A.mem_ranks hrt hrt,place_root hrt,A.size_root,Nat.zero_add]
      exact ⟨hd,Nat.zero_le _,place_lt hrt hd⟩
    have hhol := h.full hfit hrt hrt hord hpen hran hne (hapa d)
    rw [Holds,memory,slot,vectors_root,hvec,place_root hrt,Nat.sub_zero,hlen d hd] at hhol
    exact hhol

omit he in
theorem RankOk.finish (h : A.Stored c vec root x m) (hexp : expected t root c vec root ≠ 0)
    (hord : ∀ q < A.degree root, (m (A.child root q)).complete=true → (m (A.child root q)).arrived=true)
    (hpen : A.pending c x m root = 0) (hcou : x.donecount=0) (hpst : x.posted=false)
    (hdon : x.dones=0) : A.RankOk c vec root (x.sendNext t root root (c root) vec) m := by
  rw [sendNext,if_pos rfl,vectors_root]
  have hzr : ∀ r : ℕ → V, A.pending c { x with rbuf := r, dones := x.dones+1 } m root=0 := fun r =>
    (pending_congr A rfl fun _ _ => rfl).trans hpen
  cases hvec : vec with
  | none =>
    rw [hvec] at h hexp
    have hrot := fun d hd => h.rotate (hvec ▸ hfit) hrt rfl hord hexp hpen (d := d) hd
    simp only [isSome_none,Bool.false_eq_true,if_false]
    refine ⟨⟨h.failed,h.bufcnt,h.link,fun _ _ hne => absurd rfl hne,fun _ _ _ _ => hrot root hrt,h.record,
      fun q hq ha d hd hapa => ?_⟩,fun _ => ?_,?_,?_,fun _ _ _ _ => hrot⟩
    · have hhl := h.held q hq ha d hd hapa
      rw [Holds,memory,vectors_root] at hhl ⊢
      exact hhl
    · rw [hzr,hcou,Nat.cast_zero]
    · simp only [hpst,Bool.false_eq_true,ne_eq,not_true_eq_false,false_and]
    · rw [if_neg hexp,if_pos rfl,hzr,if_pos rfl,hdon]
  | some v =>
    rw [hvec] at h hexp
    simp only [isSome_some,if_true]
    refine ⟨⟨h.failed,h.bufcnt,h.link,fun _ _ hne => absurd rfl hne,h.ownRoot,h.record,h.held⟩,fun _ => ?_,?_,
      ?_,fun _ hnn => by contradiction⟩
    · exact hcou.trans (congrArg _ (hzr x.rbuf).symm)
    · simp only [hpst,Bool.false_eq_true,ne_eq,not_true_eq_false,false_and]
    · rw [if_neg hexp,if_pos rfl,if_pos (hzr x.rbuf),hdon]

omit he in
theorem RankOk.countDown (h : A.Stored c vec e x m) (hexp : expected t root c vec e ≠ 0) {n : ℕ}
    (hord : ∀ q < A.degree e, (m (A.child e q)).complete=true → (m (A.child e q)).arrived=true)
    (hcou : x.donecount = A.pending c x m e+n) (hpst : x.posted=false) (hdon : x.dones=0)
    (hsn : (m e).sent=false) : A.RankOk c vec e (x.countDown t root e (c e) vec n) m := by
  have hlf : x.donecount-n=A.pending c x m e := by omega
  have hsto : A.Stored c vec e { x with donecount := A.pending c x m e } m :=
    ⟨h.failed,h.bufcnt,h.link,h.own,h.ownRoot,h.record,h.held⟩
  have hsm : ∀ y : GatherExec V, y.started=x.started → A.pending c y m e = A.pending c x m e := fun y hy =>
    pending_congr A hy fun _ _ => rfl
  rw [GatherExec.countDown,hlf]
  by_cases hpen : A.pending c x m e=0
  · simp only
    rw [if_pos (by rw [hpen]; rfl)]
    by_cases heq : e=root
    · subst heq
      exact RankOk.finish hfit hrt hsto hexp hord ((hsm _ rfl).trans hpen) (congrArg _ hpen) hpst hdon
    · rw [sendNext,if_neg heq]
      refine ⟨⟨h.failed,h.bufcnt,h.link,h.own,h.ownRoot,h.record,h.held⟩,fun _ => ?_,?_,?_,
        fun heq' => absurd heq' heq⟩
      · exact congrArg _ (hsm _ rfl).symm
      · exact iff_of_true rfl ⟨heq,hexp,(hsm _ rfl).trans hpen⟩
      · rw [if_neg hexp,if_neg heq,hsn,if_neg Bool.false_ne_true]
        exact hdon
  · simp only
    rw [if_neg (by omega)]
    have hnow := (hsm { x with donecount := A.pending c x m e } rfl).trans_ne hpen
    refine ⟨hsto,fun _ => congrArg _ (hsm _ rfl).symm,?_,?_,fun _ _ _ hzr => absurd hzr hnow⟩
    · exact iff_of_false (by simp [hpst]) fun h => hnow h.2.2
    · rw [if_neg hexp,if_neg hnow,hsn,if_neg Bool.false_ne_true,ite_self]
      exact hdon

section

variable (h : A.RankOk c vec e x m)
include h

omit hfit hrt he in
theorem RankOk.dones_le : x.dones≤1 := by
  rw [h.dones]
  split_ifs <;> omega

omit hfit hrt he in
theorem RankOk.waiting (hexp : expected t root c vec e ≠ 0) (hsn : (m e).sent=true → x.posted=true)
    (hpen : A.pending c x m e ≠ 0) : x.posted=false ∧ x.dones=0 ∧ (m e).sent=false := by
  have hpst : x.posted=false := Bool.not_eq_true _ ▸ fun hyes => hpen (h.posted.mp hyes).2.2
  have hfre : (m e).sent=false := Bool.not_eq_true _ ▸ fun hyes => Bool.false_ne_true (hpst.symm.trans (hsn hyes))
  refine ⟨hpst,h.dones.trans ?_,hfre⟩
  rw [if_neg hexp,if_neg hpen,hfre,if_neg Bool.false_ne_true,ite_self]

theorem RankOk.start (hfre : x.started=false) (hsn : (m e).sent=true → x.posted=true)
    (hord : ∀ q < A.degree e, (m (A.child e q)).complete=true → (m (A.child e q)).arrived=true) :
    A.RankOk c vec e (x.start t root e (S e) (c e) vec) m := by
  rw [GatherExec.start]
  by_cases hexp : expected t root c vec e=0
  · have hdon := h.dones
    rw [if_pos hexp,hfre,if_neg Bool.false_ne_true] at hdon
    rw [if_pos (h.bufcnt.trans hexp)]
    refine ⟨⟨h.failed,h.bufcnt,h.link,fun _ hne => absurd hexp hne,fun _ hne => absurd hexp hne,h.record,h.held⟩,
      fun hne => absurd hexp hne,?_,?_,fun _ _ hne => absurd hexp hne⟩
    · exact iff_of_false (fun hyes => (h.posted.mp hyes).2.1 hexp) fun hyes => hyes.2.1 hexp
    · rw [if_pos hexp,if_pos rfl,hdon]
  · rw [if_neg (h.bufcnt.trans_ne hexp)]
    have hnon : A.pending c x m e≠0 := fun hzr =>
      Bool.false_ne_true (hfre.symm.trans ((A.pending_eq_zero he).mp hzr).1)
    obtain ⟨hpst,hdon,hno⟩ := h.waiting hexp hsn hnon
    have hkp : ∀ z : GatherExec V, (z.copyOwn t root e (S e) (c e) vec).started=z.started ∧
        (z.copyOwn t root e (S e) (c e) vec).donecount=z.donecount ∧
          (z.copyOwn t root e (S e) (c e) vec).posted=z.posted ∧
            (z.copyOwn t root e (S e) (c e) vec).dones=z.dones := by
      intro z
      rw [GatherExec.copyOwn]
      split
      · split <;> exact ⟨rfl,rfl,rfl,rfl⟩
      · split <;> exact ⟨rfl,rfl,rfl,rfl⟩
    have hsta := hkp { x with started := true }
    have hcou := A.pending_start (c := c) (e := e) (m := m) hfre hsta.1
    have hdnc := h.donecount hexp
    exact RankOk.countDown hfit hrt (h.toStored.start hfit hrt he) hexp hord (by rw [hsta.2.1]; simp only; omega)
      (hsta.2.2.1.trans hpst) (hsta.2.2.2.trans hdon) hno

omit hfit hrt he in
theorem RankOk.keep {y : GatherExec V} (hsto : A.Stored c vec e y m') (hstr : y.started=x.started)
    (hdnc : y.donecount=x.donecount) (hpst : y.posted=x.posted) (hdon : y.dones=x.dones)
    (hrbuf : e=root → vec=none → y.rbuf=x.rbuf)
    (hm : ∀ q < A.degree e, (m' (A.child e q)).complete=(m (A.child e q)).complete)
    (hsn : (m' e).sent=(m e).sent) : A.RankOk c vec e y m' := by
  have hpen := A.pending_congr (c := c) hstr hm
  refine ⟨hsto,fun hexp => ?_,?_,?_,fun heq hvec hexp hzr d hd => ?_⟩
  · rw [hdnc,hpen]
    exact h.donecount hexp
  · rw [hpst,hpen]
    exact h.posted
  · rw [hdon,hpen,hstr,hsn]
    exact h.dones
  · rw [hrbuf heq hvec]
    exact h.final heq hvec hexp (hpen.symm.trans hzr) d hd

theorem RankOk.complete (hq : q < A.degree e) (hcou : (c (A.child e q)).count≠0)
    (hinc : (m (A.child e q)).incoming=true) (hbef : (m (A.child e q)).complete=false)
    (haft : (m' (A.child e q)).complete=true)
    (hm : ∀ p < A.degree e, p≠q → (m' (A.child e p)).complete=(m (A.child e p)).complete)
    (hin : ∀ p < A.degree e, (m' (A.child e p)).incoming=true → (m (A.child e p)).incoming=true)
    (harr : ∀ p < A.degree e, (m' (A.child e p)).arrived=true → (m (A.child e p)).arrived=true)
    (hord : ∀ p < A.degree e, (m' (A.child e p)).complete=true → (m' (A.child e p)).arrived=true)
    (hsn : (m e).sent=true → x.posted=true) (hsm : (m' e).sent=(m e).sent) :
    A.RankOk c vec e (x.notifyRecvDone t root e (c e) vec
      (recvIndex (S e) (A.child e q) (S (A.child e q)).startphase)) m' := by
  have hexp := hfit.expected_of_child hrt he hq hcou
  have hsum := A.pending_complete (x := x) hq hcou hbef haft hm rfl
  have hpos := A.size_pos (A.child_mem e he q hq)
  obtain ⟨hpst,hdon,hno⟩ := h.waiting hexp hsn (by omega)
  have hdnc := h.donecount hexp
  rw [notifyRecvDone,h.record q hq hinc]
  exact RankOk.countDown hfit hrt (h.toStored.congr hin harr) hexp hord (by simp only; omega) hpst hdon
    (hsm.trans hno)

end

end Counting

section Runs

open GatherSystem

/-- What holds of all ranks and messages. -/
structure Gathers (A : GatherTree t root S) (c : ℕ → GatherCall V) (vec : Option GatherVectors) (s : GatherSystem V) :
    Prop where
  rank : ∀ e ∈ t, A.RankOk c vec e (s.rank e) s.message
  message : ∀ a, A.MessageOk c a (s.rank a) (s.message a)
  outside : ∀ e, e ∉ t → (s.rank e).posted = false

variable {s s' : GatherSystem V} {a b : ℕ}

theorem Gathers.ordered (h : A.Gathers c vec s) (e : ℕ) :
    ∀ q < A.degree e, (s.message (A.child e q)).complete=true → (s.message (A.child e q)).arrived=true :=
  fun _ _ => (h.message _).complete

theorem Gathers.sent_posted (h : A.Gathers c vec s) (a : ℕ) (hsn : (s.message a).sent=true) :
    (s.rank a).posted=true := by
  obtain ⟨v,hv⟩ := isSome_iff_exists.mp ((h.message a).sent hsn)
  exact ((h.message a).data v hv).1

theorem Gathers.sender (h : A.Gathers c vec s) (hda : (s.message a).data.isSome=true) :
    ∃ b ∈ t, ∃ q < A.degree b, A.child b q = a ∧ (s.rank a).dst = some b ∧ (c a).count≠0 ∧
      (s.message a).data = some (A.collected c a) := by
  obtain ⟨v,hv⟩ := isSome_iff_exists.mp hda
  obtain ⟨hpst,rfl⟩ := (h.message a).data v hv
  have ha : a ∈ t := by
    by_contra hno
    exact Bool.false_ne_true ((h.outside a hno).symm.trans hpst)
  obtain ⟨hne,hexp,-⟩ := (h.rank a ha).posted.mp hpst
  obtain ⟨b,hb,q,hq,heq⟩ := A.exists_parent a ha hne
  rw [expected_of_ne hne] at hexp
  exact ⟨b,hb,q,hq,heq,((h.rank a ha).link b hb q hq heq).1,hexp,hv⟩

theorem Gathers.change (h : A.Gathers c vec s) (hb : b ∈ t) {y : GatherExec V} {n : GatherMessage V}
    (hy : A.RankOk c vec b y (update s.message a n))
    (hfla : (∃ q < A.degree b, A.child b q = a) ∨ n.incoming=(s.message a).incoming ∧
      n.arrived=(s.message a).arrived ∧ n.complete=(s.message a).complete)
    (hsn : a≠b → n.sent=(s.message a).sent) (hn : A.MessageOk c a (if a=b then y else s.rank a) n)
    (hpst : (s.rank b).posted=true → y.posted=true) :
    A.Gathers c vec ((s.setMessage a n).setRank b y) := by
  refine ⟨fun e he => ?_,fun a' => ?_,fun e he => ?_⟩
  · by_cases heq : e=b
    · subst heq
      simp only [GatherSystem.setRank,setMessage,update_self]
      exact hy
    · simp only [GatherSystem.setRank,setMessage,update_of_ne heq]
      have hsm : ∀ q<A.degree e,
          (update s.message a n (A.child e q)).incoming=(s.message (A.child e q)).incoming ∧
            (update s.message a n (A.child e q)).arrived=(s.message (A.child e q)).arrived ∧
              (update s.message a n (A.child e q)).complete=(s.message (A.child e q)).complete := by
        intro q hq
        by_cases hthis : A.child e q=a
        · rw [hthis,update_self]
          obtain ⟨p,hp,hchi⟩ | hfla := hfla
          · exact absurd (A.child_inj e he q hq b hb p hp (hthis.trans hchi.symm)).1 heq
          · exact hfla
        · rw [update_of_ne hthis]
          exact ⟨rfl,rfl,rfl⟩
      have hrk := h.rank e he
      refine hrk.keep (hrk.toStored.congr (fun q hq hi => (hsm q hq).1 ▸ hi) fun q hq hi =>
        (hsm q hq).2.1 ▸ hi) rfl rfl rfl rfl (fun _ _ => rfl) (fun q hq => (hsm q hq).2.2) ?_
      by_cases hthis : e=a
      · subst hthis
        rw [update_self]
        exact hsn heq
      · rw [update_of_ne hthis]
  · by_cases heq : a'=a
    · subst heq
      simp only [GatherSystem.setRank,setMessage,update_self,update_apply]
      exact hn
    · have hmes := h.message a'
      simp only [GatherSystem.setRank,setMessage,update_of_ne heq]
      refine ⟨hmes.sent,hmes.incoming,hmes.arrived,hmes.complete,fun v hv => ?_⟩
      obtain ⟨hpts,hv⟩ := hmes.data v hv
      refine ⟨?_,hv⟩
      by_cases hthis : a'=b
      · subst hthis
        rw [update_self]
        exact hpst hpts
      · rw [update_of_ne hthis]
        exact hpts
  · have heq : e≠b := by
      rintro rfl
      exact he hb
    simp only [GatherSystem.setRank,setMessage,update_of_ne heq]
    exact h.outside e he

theorem update_field {β : Type*} (f : GatherMessage V → β) {n : GatherMessage V} (h : f n = f (m a)) (e : ℕ) :
    f (update m a n e) = f (m e) := by
  rw [apply_update (fun _ => f),h]
  exact congrFun (update_eq_self a fun e => f (m e)) e

theorem of_update (f : GatherMessage V → Bool) {n : GatherMessage V} {e : ℕ} (he : f (update m a n e) = true)
    (h : f n = f (m a)) : f (m e) = true :=
  (update_field f h e).symm.trans he

theorem child_ne (hb : b ∈ t) (hq : q < A.degree b) : A.child b q ≠ b := fun heq =>
  (A.child_place b hb q hq).1.ne (congrArg _ heq.symm)

theorem update_child (hb : b ∈ t) (hq : q < A.degree b) (m : ℕ → GatherMessage V) (n : GatherMessage V) :
    (∀ p < A.degree b, p≠q → update m (A.child b q) n (A.child b p) = m (A.child b p)) ∧
      update m (A.child b q) n b = m b :=
  ⟨fun p hp hne => update_of_ne (fun heq => hne (A.child_inj b hb p hp b hb q hq heq).2) _ _,
    update_of_ne (child_ne hb hq).symm _ _⟩

section Steps

variable (hfit : A.Fitting c vec) (hrt : root ∈ t)

include hfit hrt

section

variable (h : A.Gathers c vec s)
include h

theorem Gathers.start (hs : s.start t root S c vec b = some s') : A.Gathers c vec s' := by
  obtain ⟨⟨hb,hfre⟩,rfl⟩ := ite_some_none_eq_some.mp hs
  have hrk := (h.rank b hb).start hfit hrt hb hfre (h.sent_posted b) (h.ordered b)
  have hsm : s.setMessage b (s.message b)=s := by rw [setMessage,update_eq_self]
  have hpst : (s.rank b).posted=true → ((s.rank b).start t root b (S b) (c b) vec).posted=true := by
    intro hyes
    have hzr := ((h.rank b hb).posted.mp hyes).2.2
    exact absurd (hfre.symm.trans ((A.pending_eq_zero hb).mp hzr).1) Bool.false_ne_true
  have hmes := h.message b
  rw [← hsm]
  refine h.change hb ?_ (.inr ⟨rfl,rfl,rfl⟩) (fun _ => rfl) ?_ hpst
  · rw [update_eq_self]
    exact hrk
  · rw [if_pos rfl]
    exact ⟨hmes.sent,hmes.incoming,hmes.arrived,hmes.complete,fun v hv =>
      ⟨hpst (hmes.data v hv).1,(hmes.data v hv).2⟩⟩

theorem Gathers.transmit (hs : s.transmit S c a = some s') : A.Gathers c vec s' := by
  obtain ⟨⟨hpst,hnn⟩,rfl⟩ := ite_some_none_eq_some.mp hs
  have ha : a ∈ t := by
    by_contra hno
    exact Bool.false_ne_true ((h.outside a hno).symm.trans hpst)
  have hrk := h.rank a ha
  have hpay := hrk.payload hfit hrt ha (h.ordered a) hpst
  have hmes := h.message a
  have hno : ∀ {b : Bool}, (b=true → (s.message a).data.isSome=true) → b=false := by
    intro b hb
    by_contra hyes
    have hso := hb (Bool.not_eq_false _ ▸ hyes)
    rw [isNone_iff_eq_none.mp hnn] at hso
    contradiction
  have hin := hno hmes.incoming
  generalize hn : ({ s.message a with data := some ((s.rank a).payload (S a) (c a)) } : GatherMessage V)=n
  have hsm : s.setMessage a n = (s.setMessage a n).setRank a (s.rank a) := by
    rw [GatherSystem.setRank]
    simp only [setMessage,update_eq_self]
  have hfla : n.sent=(s.message a).sent ∧ n.incoming=(s.message a).incoming ∧
      n.arrived=(s.message a).arrived ∧ n.complete=(s.message a).complete := by
    rw [← hn]
    exact ⟨rfl,rfl,rfl,rfl⟩
  rw [hsm]
  refine h.change ha ?_ (.inr hfla.2) (fun hne => absurd rfl hne) ?_ id
  · obtain ⟨hsn,hinc,hard,hcom⟩ := hfla
    exact hrk.keep (hrk.toStored.congr (fun q _ hi => of_update incoming hi hinc)
      fun q _ hi => of_update arrived hi hard) rfl rfl rfl rfl (fun _ _ => rfl)
      (fun q _ => update_field _ hcom _) (update_field _ hsn a)
  · rw [if_pos rfl,← hn]
    exact ⟨fun _ => rfl,fun _ => rfl,hmes.arrived,hmes.complete,fun v hv => ⟨hpst,(some.inj hv).symm.trans hpay⟩⟩

omit hfit hrt in
theorem Gathers.sent (hs : s.sent a = some s') : A.Gathers c vec s' := by
  obtain ⟨⟨hda,hfre⟩,rfl⟩ := ite_some_none_eq_some.mp hs
  obtain ⟨b,hb,q,hq,rfl,-,-,hv⟩ := h.sender hda
  have ha := A.child_mem b hb q hq
  have hrk := h.rank _ ha
  have hmes := h.message (A.child b q)
  have hpst := (hmes.data _ hv).1
  obtain ⟨hne,hexp,hpen⟩ := hrk.posted.mp hpst
  have hsm : ∀ p<A.degree (A.child b q), update s.message (A.child b q)
      { s.message (A.child b q) with sent := true } (A.child (A.child b q) p) = s.message (A.child (A.child b q) p) :=
    fun p hp => update_of_ne (child_ne ha hp) _ _
  have hwait := A.pending_congr (c := c) (x := s.rank (A.child b q))
    (y := { s.rank (A.child b q) with dones := (s.rank (A.child b q)).dones+1 }) rfl
    fun p hp => congrArg GatherMessage.complete (hsm p hp)
  have hdon := hrk.dones
  rw [if_neg hexp,if_neg hne,hfre,if_neg Bool.false_ne_true] at hdon
  refine h.change ha ?_ (.inr ⟨rfl,rfl,rfl⟩) (fun hoth => absurd rfl hoth) ?_ id
  · have hsto := hrk.toStored.congr (fun p hp hi => (congrArg GatherMessage.incoming (hsm p hp)) ▸ hi)
      (fun p hp hi => (congrArg GatherMessage.arrived (hsm p hp)) ▸ hi)
    refine ⟨⟨hsto.failed,hsto.bufcnt,hsto.link,hsto.own,hsto.ownRoot,hsto.record,hsto.held⟩,
      fun _ => ?_,?_,?_,fun heq => absurd heq hne⟩
    · rw [hwait]
      exact hrk.donecount hexp
    · rw [hwait]
      exact hrk.posted
    · rw [if_neg hexp,if_neg hne,update_self,if_pos rfl,hdon]
  · rw [if_pos rfl]
    exact ⟨fun _ => hda,hmes.incoming,hmes.arrived,hmes.complete,hmes.data⟩

theorem Gathers.incoming (hs : s.incoming t root S c vec a = some s') : A.Gathers c vec s' := by
  obtain ⟨⟨hda,-⟩,hs⟩ := ite_none_right_eq_some.mp hs
  obtain ⟨b',hdst,rfl⟩ := map_eq_some_iff.mp hs
  obtain ⟨b,hb,q,hq,rfl,hdst',-,-⟩ := h.sender hda
  obtain rfl := some.inj (hdst.symm.trans hdst')
  have hrk := h.rank b' hb
  have hmes := h.message (A.child b' q)
  refine h.change hb ?_ (.inl ⟨q,hq,rfl⟩) (fun _ => rfl) ?_ ?_
  · obtain ⟨hoth,hse⟩ := update_child hb hq s.message { s.message (A.child b' q) with incoming := true }
    have hsto := hrk.toStored.incoming hfit hrt hb hq (fun p hp hne hi => hoth p hp hne ▸ hi)
      (fun p hp ha => of_update arrived ha (by rfl))
    rw [notifyRecv_child hfit hrt hb hrk.bufcnt hq] at hsto ⊢
    exact hrk.keep hsto rfl rfl rfl rfl (fun _ _ => rfl) (fun p hp => update_field complete (by rfl) _) (congrArg _ hse)
  · rw [if_neg (child_ne hb hq)]
    exact ⟨hmes.sent,fun _ => hda,fun _ => rfl,hmes.complete,hmes.data⟩
  · rw [notifyRecv_child hfit hrt hb hrk.bufcnt hq]
    exact id

theorem Gathers.arrive (hs : s.arrive t root S c vec a = some s') : A.Gathers c vec s' := by
  obtain ⟨⟨hinc,-⟩,hs⟩ := ite_none_right_eq_some.mp hs
  obtain ⟨b',hdst,hs⟩ := bind_eq_some_iff.mp hs
  obtain ⟨v,hv,rfl⟩ := map_eq_some_iff.mp hs
  obtain ⟨b,hb,q,hq,rfl,hdst',-,hv'⟩ := h.sender (by rw [hv]; rfl)
  obtain rfl := some.inj (hdst.symm.trans hdst')
  obtain rfl := some.inj (hv.symm.trans hv')
  have hrk := h.rank b' hb
  have hmes := h.message (A.child b' q)
  have hkp := receive_child hfit hrt hb hrk.toStored hq hinc
  refine h.change hb ?_ (.inl ⟨q,hq,rfl⟩) (fun _ => rfl) ?_ ?_
  · obtain ⟨hoth,hse⟩ := update_child hb hq s.message { s.message (A.child b' q) with arrived := true }
    have hsto := hrk.toStored.arrive hfit hrt hb hq hinc
      (fun p hp hi => of_update GatherMessage.incoming hi (by rfl))
      (fun p hp hne ha => hoth p hp hne ▸ ha)
    rw [hkp] at hsto ⊢
    apply hrk.keep hsto
    · split <;> rfl
    · split <;> rfl
    · split <;> rfl
    · split <;> rfl
    · intro heq hvec
      rw [if_neg]
      subst hvec
      rw [vectors,ite_self]
      exact Bool.false_ne_true
    · exact fun p hp => update_field GatherMessage.complete (by rfl) _
    · exact congrArg _ hse
  · rw [if_neg (child_ne hb hq)]
    exact ⟨hmes.sent,hmes.incoming,fun _ => hinc,fun _ => rfl,hmes.data⟩
  · rw [hkp]
    split <;> exact id

theorem Gathers.complete (hs : s.complete t root S c vec a = some s') : A.Gathers c vec s' := by
  obtain ⟨⟨hard,hfre⟩,hs⟩ := ite_none_right_eq_some.mp hs
  obtain ⟨b',hdst,rfl⟩ := map_eq_some_iff.mp hs
  have hinc := (h.message a).arrived hard
  obtain ⟨b,hb,q,hq,rfl,hdst',hcou,-⟩ := h.sender ((h.message a).incoming hinc)
  obtain rfl := some.inj (hdst.symm.trans hdst')
  have hrk := h.rank b' hb
  have hmes := h.message (A.child b' q)
  obtain ⟨hoth,hse⟩ := update_child hb hq s.message { s.message (A.child b' q) with complete := true }
  have haft : (update s.message (A.child b' q) { s.message (A.child b' q) with complete := true }
      (A.child b' q)).complete=true := by
    rw [update_self]
  have hcom := hrk.complete hfit hrt hb hq hcou hinc hfre haft
    (fun p hp hne => congrArg _ (hoth p hp hne))
    (fun p hp hi => of_update GatherMessage.incoming hi (by rfl))
    (fun p hp ha => of_update GatherMessage.arrived ha (by rfl)) (fun p hp hc => ?_) (h.sent_posted b')
    (congrArg _ hse)
  · refine h.change hb hcom (.inl ⟨q,hq,rfl⟩) (fun _ => rfl) ?_ fun hyes => ?_
    · rw [if_neg (child_ne hb hq)]
      exact ⟨hmes.sent,hmes.incoming,hmes.arrived,fun _ => hard,hmes.data⟩
    · -- a rank that has posted waits for no message
      have hzr := (hrk.posted.mp hyes).2.2
      have hov := ((A.pending_eq_zero hb).mp hzr).2 q hq hcou
      exact absurd (hfre.symm.trans hov) Bool.false_ne_true
  · rw [update_field GatherMessage.arrived (by rfl)]
    by_cases heq : p=q
    · rw [heq]
      exact hard
    · rw [hoth p hp heq] at hc
      exact h.ordered b' p hp hc

theorem Gathers.step {e : GatherEvent} (hs : s.step t root S c vec e = some s') : A.Gathers c vec s' := by
  cases e with
  | start r => exact h.start hfit hrt hs
  | transmit a => exact h.transmit hfit hrt hs
  | sent a => exact h.sent hs
  | incoming a => exact h.incoming hfit hrt hs
  | arrive a => exact h.arrive hfit hrt hs
  | complete a => exact h.complete hfit hrt hs

end

end Steps

section Start

/-- What `setBuffers` counts. -/
def counted (A : GatherTree t root S) (vec : Option GatherVectors) (e : ℕ) : ℤ :=
  if e = root then
    match vec with
    | some v => t.size - (List.range t.size).countP fun i => decide (v.rcvcounts i = 0 ∧ i ≠ t.endpoint2Index root)
    | none => t.size
  else A.size e

theorem counted_of_ne (hne : e≠root) : A.counted vec e = A.size e := if_neg hne

theorem counted_none : A.counted none root = t.size := if_pos rfl

theorem counted_some (v : GatherVectors) : A.counted (some v) root =
    t.size-(List.range t.size).countP fun i => decide (v.rcvcounts i = 0 ∧ i ≠ t.endpoint2Index root) := if_pos rfl

variable (hfit : A.Fitting c vec) (hrt : root ∈ t)

include hfit hrt

theorem count_empty {v : GatherVectors} (hvec : vec = some v) :
    ((List.range t.size).countP fun i => decide (v.rcvcounts i = 0 ∧ i ≠ t.endpoint2Index root)) =
      ∑ q ∈ Finset.range (A.degree root), if (c (A.child root q)).count=0 then 1 else 0 := by
  have hzr : ∀ e ∈ t, v.rcvcounts (t.endpoint2Index e)=0 ↔ (c e).count=0 := fun e he =>
    ((hfit.vector v hvec e he).2).trans (hfit.zero e he)
  have hcard : ((List.range t.size).countP fun i => decide (v.rcvcounts i=0 ∧ i≠t.endpoint2Index root)) =
      ((Finset.range t.size).filter fun i => v.rcvcounts i=0 ∧ i≠t.endpoint2Index root).card := by
    rw [← Multiset.coe_countP,Multiset.countP_eq_card_filter]
    rfl
  rw [hcard,← Finset.card_filter]
  symm
  apply Finset.card_bij fun q _ => t.endpoint2Index (A.child root q)
  · intro q hq
    obtain ⟨hq,hcou⟩ := Finset.mem_filter.mp hq
    have hq := Finset.mem_range.mp hq
    have hchi := A.child_mem root hrt q hq
    refine Finset.mem_filter.mpr ⟨Finset.mem_range.mpr (Topology.endpoint2Index_lt hchi),
      (hzr _ hchi).mpr hcou,fun heq => A.child_ne_root hrt hrt hq ?_⟩
    rw [← Topology.index2Endpoint_endpoint2Index hchi,heq,Topology.index2Endpoint_endpoint2Index hrt]
  · intro q hq p hp heq
    have hq := Finset.mem_range.mp (Finset.mem_filter.mp hq).1
    have hp := Finset.mem_range.mp (Finset.mem_filter.mp hp).1
    refine (A.child_inj root hrt q hq root hrt p hp ?_).2
    rw [← Topology.index2Endpoint_endpoint2Index (A.child_mem root hrt q hq),heq,
      Topology.index2Endpoint_endpoint2Index (A.child_mem root hrt p hp)]
  · intro i hi
    obtain ⟨hi,hnn,hne⟩ := Finset.mem_filter.mp hi
    have hi := Finset.mem_range.mp hi
    have hmem := Topology.index2Endpoint_mem hi
    have hinx := Topology.endpoint2Index_index2Endpoint hi
    obtain ⟨b,hb,q,hq,heq⟩ := A.exists_parent _ hmem fun hsm => hne (by rw [← hinx,hsm])
    obtain hno | ⟨-,-,rfl⟩ := hfit.cases hb hq
    · rw [hvec] at hno
      contradiction
    · refine ⟨q,Finset.mem_filter.mpr ⟨Finset.mem_range.mpr hq,?_⟩,by rw [heq,hinx]⟩
      rw [heq,← hzr _ hmem,hinx]
      exact hnn

theorem pending_new (he : e ∈ t) (hexp : expected t root c vec e ≠ 0) (hfre : x.started=false)
    (hm : ∀ a, (m a).complete=false) : (A.pending c x m e : ℤ) = A.counted vec e := by
  have hsum := A.sum_size e he
  have hpen : A.pending c x m e = 1 + ∑ q ∈ Finset.range (A.degree e),
      if (c (A.child e q)).count=0 then 0 else A.size (A.child e q) := by
    rw [pending,hfre,if_neg Bool.false_ne_true]
    refine congrArg _ (Finset.sum_congr rfl fun q _ => ?_)
    simp only [hm,and_true,ite_not,ne_eq]
  have hequ : vec=none → A.pending c x m e = A.size e := by
    intro hvec
    rw [hpen,← hsum,add_comm]
    refine congrArg (· + 1) (Finset.sum_congr rfl fun q hq => if_neg fun hzr => ?_)
    have hchi := A.child_mem e he q (Finset.mem_range.mp hq)
    rw [hfit.count_iff hvec hchi hrt,← hfit.count_iff hvec he hrt] at hzr
    exact hexp ((expected_of_none hvec).trans hzr)
  by_cases heq : e=root
  · subst heq
    cases hvec : vec with
    | none => rw [counted_none,hequ hvec,A.size_root]
    | some v =>
      rw [counted_some,count_empty hfit hrt hvec,hpen,← A.size_root,← hsum]
      have hone : ∀ q ∈ Finset.range (A.degree e), A.size (A.child e q) =
          (if (c (A.child e q)).count=0 then 0 else A.size (A.child e q)) +
            if (c (A.child e q)).count=0 then 1 else 0 := by
        intro q hq
        have hq := Finset.mem_range.mp hq
        have hchi := A.child_mem e he q hq
        have hsi := A.size_leaf hchi (hfit.leaf (by rw [hvec]; rfl) _ hchi (A.child_ne_root hrt he hq))
        split <;> omega
      rw [Finset.sum_congr rfl hone,Finset.sum_add_distrib]
      push_cast
      omega
  · rw [counted_of_ne heq]
    by_cases hdeg : 0<A.degree e
    · obtain hvec | ⟨-,-,heq'⟩ := hfit.cases he hdeg
      · exact congrArg _ (hequ hvec)
      · exact absurd heq' heq
    · have hzr : A.degree e=0 := by omega
      rw [hpen,A.size_leaf he hzr,hzr,Finset.range_zero,Finset.sum_empty,add_zero]

omit hfit in
theorem setBuffers_kept (hnew : e ∈ t) (tmpbuf rbuf : ℕ → V) :
    ∃ n : ℤ, ∃ l : ℕ, ∃ b : Option ℕ, setBuffers t root e (S e) (c e) vec (new tmpbuf rbuf) =
        { new tmpbuf rbuf with
          bufcnt := expected t root c vec e, donecount := n, totallen := l, dst := b } ∧
      (∀ b' ∈ t, ∀ q < A.degree b', A.child b' q = e → b = some b' ∧ l = A.size e) ∧
      n = A.counted vec e := by
  rw [setBuffers]
  by_cases heq : e=root
  · have hno : ∀ b' ∈ t, ∀ q<A.degree b', A.child b' q≠e := fun b' hb q hq hchi =>
      A.child_ne_root hrt hb hq (hchi.trans heq)
    subst heq
    rw [if_pos rfl,expected,vectors_root]
    cases vec with
    | none => exact ⟨_,_,_,rfl,fun b' hb q hq hchi => absurd hchi (hno b' hb q hq),counted_none.symm⟩
    | some v => exact ⟨_,_,_,rfl,fun b' hb q hq hchi => absurd hchi (hno b' hb q hq),(counted_some v).symm⟩
  · obtain ⟨b,hb,q,hq,rfl⟩ := A.exists_parent e hnew heq
    rw [if_neg heq,counted_of_ne heq,A.getLList b hb q hq,expected_of_ne heq]
    refine ⟨_,_,_,rfl,fun b' hb' q' hq' hchi => ?_,rfl⟩
    rw [(A.child_inj b' hb' q' hq' b hb q hq hchi).1]
    exact ⟨rfl,rfl⟩

omit hfit hrt in
theorem setBuffers_posted (S : GatherSchedule) (y : GatherCall V) (x : GatherExec V) :
    (x.setBuffers t root e S y vec).posted=x.posted := by
  rw [setBuffers]
  split <;> split <;> rfl

theorem gathers_new (tmpbuf rbuf : ℕ → ℕ → V) : A.Gathers c vec (GatherSystem.new t root S c vec tmpbuf rbuf) := by
  refine ⟨fun e he => ?_,fun a => ⟨id,id,id,id,fun v hv => by contradiction⟩,fun e _ => setBuffers_posted _ _ _⟩
  obtain ⟨n,l,b,heq,hlink,hn⟩ := setBuffers_kept (A := A) (c := c) hrt he (tmpbuf e) (rbuf e)
  have hnew : (GatherSystem.new t root S c vec tmpbuf rbuf).rank e = _ := heq
  have hpen := fun x m hexp => pending_new (A := A) (x := x) (m := m) hfit hrt he hexp
  have hwai : ∀ m : ℕ → GatherMessage V, A.pending c { new (tmpbuf e) (rbuf e) with
      bufcnt := expected t root c vec e, donecount := n, totallen := l, dst := b } m e≠0 := fun m hzr =>
    Bool.false_ne_true ((A.pending_eq_zero he).mp hzr).1
  rw [hnew]
  refine ⟨⟨rfl,rfl,hlink,fun h => absurd h Bool.false_ne_true,fun h => absurd h Bool.false_ne_true,
    fun _ _ h => absurd h Bool.false_ne_true,fun _ _ h => absurd h Bool.false_ne_true⟩,fun hexp => ?_,
    iff_of_false Bool.false_ne_true fun h => hwai _ h.2.2,?_,fun _ _ _ hzr => absurd hzr (hwai _)⟩
  · rw [hpen _ _ hexp rfl fun _ => rfl]
    exact hn
  · rw [if_neg (hwai _)]
    split
    case isTrue => rfl
    case isFalse => split <;> rfl

end Start

theorem gathers_run (hfit : A.Fitting c vec) (hrt : root ∈ t) {tmpbuf rbuf : ℕ → ℕ → V}
    (h : Run (step t root S c vec) (fun _ _ => True) (GatherSystem.new t root S c vec tmpbuf rbuf) s) :
    A.Gathers c vec s :=
  h.invariant (gathers_new hfit hrt tmpbuf rbuf) fun _ _ _ h _ hs => h.step hfit hrt hs

section Quiet

def Quiet (t : Topology) (root : ℕ) (S : ℕ → GatherSchedule) (c : ℕ → GatherCall V) (vec : Option GatherVectors)
    (s : GatherSystem V) : Prop := ∀ e, s.step t root S c vec e = none

variable (hrt : root ∈ t) (h : A.Gathers c vec s) (hqui : Quiet t root S c vec s)

include hrt h hqui

omit hrt h in
theorem Quiet.started (he : e ∈ t) : (s.rank e).started=true := by
  by_contra hno
  have hnn : s.start t root S c vec e=none := hqui (.start e)
  rw [GatherSystem.start,if_pos ⟨he,Bool.not_eq_true _ ▸ hno⟩] at hnn
  contradiction

omit hrt in
theorem Quiet.over (hpst : (s.rank d).posted=true) :
    (s.message d).sent=true ∧ (s.message d).complete=true := by
  have hda : (s.message d).data.isSome=true := by
    by_contra hno
    have hnn : s.transmit S c d=none := hqui (.transmit d)
    rw [GatherSystem.transmit,if_pos ⟨hpst,isNone_iff_eq_none.mpr (not_isSome_iff_eq_none.mp hno)⟩] at hnn
    contradiction
  obtain ⟨b,-,q,-,-,hdst,-,hv⟩ := h.sender hda
  have hsn : (s.message d).sent=true := by
    by_contra hno
    have hnn : s.sent d=none := hqui (.sent d)
    rw [GatherSystem.sent,if_pos ⟨hda,Bool.not_eq_true _ ▸ hno⟩] at hnn
    contradiction
  have hinc : (s.message d).incoming=true := by
    by_contra hno
    have hnn : s.incoming t root S c vec d=none := hqui (.incoming d)
    rw [GatherSystem.incoming,if_pos ⟨hda,Bool.not_eq_true _ ▸ hno⟩,hdst] at hnn
    contradiction
  have hard : (s.message d).arrived=true := by
    by_contra hno
    have hnn : s.arrive t root S c vec d=none := hqui (.arrive d)
    rw [GatherSystem.arrive,if_pos ⟨hinc,Bool.not_eq_true _ ▸ hno⟩,hdst,hv] at hnn
    contradiction
  refine ⟨hsn,?_⟩
  by_contra hno
  have hnn : s.complete t root S c vec d=none := hqui (.complete d)
  rw [GatherSystem.complete,if_pos ⟨hard,Bool.not_eq_true _ ▸ hno⟩,hdst] at hnn
  contradiction

theorem Quiet.pending (he : e ∈ t) : A.pending c (s.rank e) s.message e = 0 := by
  induction hsi : A.size e using Nat.strong_induction_on generalizing e with
  | _ k ih =>
    refine (A.pending_eq_zero he).mpr ⟨hqui.started he,fun q hq hcou => ?_⟩
    have hchi := A.child_mem e he q hq
    have hne := A.child_ne_root hrt he hq
    have hpla := A.child_place e he q hq
    have hzr := ih (A.size (A.child e q)) (by omega) hchi rfl
    exact (hqui.over h ((h.rank _ hchi).posted.mpr ⟨hne,by rwa [expected_of_ne hne],hzr⟩)).2

theorem Quiet.done (he : e ∈ t) : (s.rank e).dones=1 := by
  have hrk := h.rank e he
  have hzr := hqui.pending hrt h he
  rw [hrk.dones,hqui.started he,if_pos rfl,hzr,if_pos rfl]
  by_cases hexp : expected t root c vec e=0
  · rw [if_pos hexp]
  · rw [if_neg hexp]
    by_cases heq : e=root
    · rw [if_pos heq]
    · rw [if_neg heq,(hqui.over h (hrk.posted.mpr ⟨heq,hexp,hzr⟩)).1,if_pos rfl]

end Quiet

section Subtree

/-- A rank other than the root sends to its destination. -/
def SendsTo (t : Topology) (root : ℕ) (s : GatherSystem V) (e b : ℕ) : Prop :=
  e ∈ t ∧ e ≠ root ∧ (s.rank e).dst = some b

theorem Gathers.mem_ranks (h : A.Gathers c vec s) (hrt : root ∈ t) (ha : a ∈ t) :
    d ∈ A.ranks a ↔ d ∈ t ∧ Relation.ReflTransGen (SendsTo t root s) d a := by
  constructor
  · intro hd
    refine ⟨((A.mem_ranks hrt ha).mp hd).1,?_⟩
    induction hsi : A.size a using Nat.strong_induction_on generalizing a with
    | _ k ih =>
      obtain ⟨hmem,hlow,hhg⟩ := (A.mem_ranks hrt ha).mp hd
      obtain heq | hlt := eq_or_lt_of_le hlow
      · have hsm : d=a := by rw [← endpointAt_place hrt hmem,← heq,endpointAt_place hrt ha]
        rw [hsm]
      · obtain ⟨q,hq,hin⟩ := A.cover a ha _ hlt hhg
        have hchi := A.child_mem a ha q hq
        have hpla := A.child_place a ha q hq
        refine (ih (A.size (A.child a q)) (by omega) hchi
          ((A.mem_ranks hrt hchi).mpr ⟨hmem,hin.1,hin.2⟩) rfl).tail ?_
        exact ⟨hchi,A.child_ne_root hrt ha hq,((h.rank _ hchi).link a ha q hq rfl).1⟩
  · rintro ⟨hd,hpath⟩
    induction hpath with
    | refl =>
      have hpos := A.size_pos ha
      exact (A.mem_ranks hrt ha).mpr ⟨ha,le_rfl,by omega⟩
    | @tail e b _ hsp ih =>
      obtain ⟨he,hne,hdst⟩ := hsp
      obtain ⟨b',hb,q,hq,rfl⟩ := A.exists_parent e he hne
      obtain rfl := some.inj (hdst.symm.trans ((h.rank _ he).link b' hb q hq rfl).1)
      obtain ⟨hmem,hlow,hhg⟩ := (A.mem_ranks hrt he).mp (ih he)
      have hpla := A.child_place b hb q hq
      exact (A.mem_ranks hrt hb).mpr ⟨hmem,by omega,by omega⟩

end Subtree

/-- What the counts come to is an `int`, and where a block goes in its buffer an `unsigned`. -/
def Small (t : Topology) (root : ℕ) (c : ℕ → GatherCall V) : Option GatherVectors → Prop
  | none => t.size * (c root).count < 2 ^ 31 ∧ t.size * blockLen c root < 2 ^ 32
  | some v => ((List.range t.size).map v.rcvcounts).sum < 2 ^ 31 ∧ ∀ i < t.size, v.disps i * (c root).rsize < 2 ^ 32

/-- The ranks agree on their blocks: all have the same length, or the length that the root has in its vector. -/
structure Agreed (t : Topology) (root : ℕ) (c : ℕ → GatherCall V) (vec : Option GatherVectors) : Prop where
  sizes : ∀ e ∈ t, 0 < (c e).ssize ∧ 0 < (c e).rsize
  equal : vec = none → ∀ e ∈ t, blockLen c e = blockLen c root ∧ (c e).count * (c e).rsize = blockLen c root
  vector : ∀ v ∈ vec, ∀ e ∈ t, v.rcvcounts (t.endpoint2Index e) * (c root).rsize = blockLen c e
  small : Small t root c vec

theorem Small.slot_lt (h : Small t root c vec) (hrt : root ∈ t) (A : GatherTree t root S)
    (hleaf : vec.isSome=true → ∀ e ∈ t, e≠root → A.degree e = 0) (he : e ∈ t) (hq : q < A.degree e) :
    slot t root c vec e (A.child e q) < 2^32 := by
  have hchi := A.child_mem e he q hq
  cases vec with
  | none =>
    have hlt := place_lt hrt hchi
    rw [slot,vectors,ite_self]
    exact (Nat.mul_le_mul_right _ (by omega)).trans_lt h.2
  | some v =>
    have heq : e=root := by
      by_contra hne
      rw [hleaf rfl e he hne] at hq
      exact Nat.not_lt_zero q hq
    subst heq
    rw [slot,vectors_root]
    exact h.2 _ (Topology.endpoint2Index_lt hchi)

/-- A k-nomial schedule with one child in each phase, for blocks of one length, or the flat one. -/
def Registered (t : Topology) (root : ℕ) (vec : Option GatherVectors) (S : ℕ → GatherSchedule) : Prop :=
  (∃ ports, 0 < ports ∧ ports ≤ maxConcurrent ∧ OneChild ports t.size ∧ vec = none ∧
    S = tree ports t root) ∨ S = GatherSchedule.flat t root

theorem Agreed.fitting (h : Agreed t root c vec) (hrt : root ∈ t) (hS : Registered t root vec S) :
    ∃ A : GatherTree t root S, A.Fitting c vec := by
  have hzr : ∀ e ∈ t, blockLen c e=0 ↔ (c e).count=0 := fun e he => by
    rw [blockLen,mul_eq_zero,or_iff_left (h.sizes e he).1.ne']
  have hvct : ∀ v ∈ vec, ∀ e ∈ t, v.rcvcounts (t.endpoint2Index e)*(c root).rsize = blockLen c e ∧
      (v.rcvcounts (t.endpoint2Index e)=0 ↔ blockLen c e=0) := fun v hv e he => by
    refine ⟨h.vector v hv e he,?_⟩
    rw [← h.vector v hv e he,mul_eq_zero,or_iff_left (h.sizes root hrt).2.ne']
  obtain ⟨ports,hpor,hle,hone,hvec,rfl⟩ | rfl := hS
  · have hleaf : vec.isSome=true → ∀ e ∈ t, e≠root → (GatherTree.ofTree hpor hrt hone hle).degree e=0 :=
      fun hso => by
        rw [hvec] at hso
        contradiction
    exact ⟨_,hzr,h.equal,hvct,hleaf,fun e he q hq => h.small.slot_lt hrt _ hleaf he hq⟩
  · have hleaf : vec.isSome=true → ∀ e ∈ t, e≠root → (GatherTree.flat hrt).degree e=0 :=
      fun _ e _ hne => if_neg hne
    exact ⟨_,hzr,h.equal,hvct,hleaf,fun e he q hq => h.small.slot_lt hrt _ hleaf he hq⟩

theorem Gathers.place_sorted (hrt : root ∈ t) (he : e ∈ t) :
    (A.ranks e).Pairwise fun a b => place t root a < place t root b := by
  have hbou := A.bound e he
  rw [ranks,pairwise_map]
  refine pairwise_lt_range.imp_of_mem fun hi hj hlt => ?_
  have hi := mem_range.mp hi
  have hj := mem_range.mp hj
  rw [place_endpointAt hrt (by omega),place_endpointAt hrt (by omega)]
  exact Nat.add_lt_add_left hlt _

theorem Gathers.root_blocks (h : A.Gathers c vec s) (hfit : A.Fitting c vec) (hrt : root ∈ t)
    (hdn : (s.rank root).dones=1) (hd : d ∈ t) (hapa : Apart t vec d) :
    readBytes (s.rank root).rbuf (target t root c vec d) (blockLen c d) = block c d := by
  have hrk := h.rank root hrt
  by_cases hexp : expected t root c vec root=0
  · -- there is nothing to gather
    have hlen : blockLen c d=0 := by
      cases hvec : vec with
      | none =>
        rw [expected_of_none hvec,← hfit.zero root hrt] at hexp
        rw [(hfit.equal hvec d hd).1,hexp]
      | some v =>
        rw [expected,vectors_root,hvec] at hexp
        have hall := List.sum_eq_zero_iff_forall_eq_nat.mp hexp _
          (mem_map_of_mem (mem_range.mpr (Topology.endpoint2Index_lt hd)))
        rw [← (hfit.vector v hvec d hd).1,hall,Nat.zero_mul]
    rw [block,hlen,readBytes_zero,readBytes_zero]
  · have hdon := hrk.dones
    rw [if_neg hexp,if_pos rfl,hdn] at hdon
    have hzr : A.pending c (s.rank root) s.message root=0 := by
      by_contra hno
      rw [if_neg hno] at hdon
      exact Nat.one_ne_zero hdon
    cases hvec : vec with
    | none => exact hvec ▸ hrk.final rfl hvec hexp hzr d hd
    | some v =>
      by_cases heq : d=root
      · subst heq
        exact hvec ▸ hrk.ownRoot ((A.pending_eq_zero hrt).mp hzr).1 hexp rfl hapa
      · have hran : d ∈ A.ranks root := by
          rw [A.mem_ranks hrt hrt,place_root hrt,A.size_root,Nat.zero_add]
          exact ⟨hd,Nat.zero_le _,place_lt hrt hd⟩
        have hhol := hrk.toStored.full hfit hrt hrt (h.ordered root) hzr hran heq hapa
        subst hvec
        exact holds_root.mp hhol

end Runs

end GatherTree

namespace GatherSystem

open GatherTree

variable {V : Type*}

/-- A gather, in any order of starts, messages and completions. -/
theorem gather_runs (t : Topology) (root : ℕ) (hrt : root ∈ t) (c : ℕ → GatherCall V) (vec : Option GatherVectors)
    (S : ℕ → GatherSchedule) (hS : Registered t root vec S) (hcal : Agreed t root c vec)
    (tmpbuf rbuf : ℕ → ℕ → V) (s : GatherSystem V)
    (hrun : Run (step t root S c vec) (fun _ _ => True) (GatherSystem.new t root S c vec tmpbuf rbuf) s) :
    (∀ ports, 0 < ports → ports ≤ maxConcurrent → OneChild ports t.size → ∀ e ∈ t,
      (ofTree ports t root e).isSome = true) ∧
    (∀ e ∈ t, (s.rank e).failed = false ∧ (s.rank e).dones ≤ 1) ∧
    (∀ b ∈ t, ∀ a, SendsTo t root s a b → recvIndex (S b) a (S a).startphase < (S b).maxsrcs * (S b).mynphases ∧
        ∀ a', SendsTo t root s a' b →
          recvIndex (S b) a (S a).startphase = recvIndex (S b) a' (S a').startphase → a = a') ∧
    (∀ a v, (s.message a).data = some v → ∃ l : List ℕ, (l.Pairwise fun d e => place t root d < place t root e) ∧
      (∀ d, d ∈ l ↔ d ∈ t ∧ Relation.ReflTransGen (SendsTo t root s) d a) ∧ v = l.flatMap (block c)) ∧
    ((s.rank root).dones = 1 → ∀ d ∈ t, Apart t vec d →
      readBytes (s.rank root).rbuf (target t root c vec d) (blockLen c d) = block c d) ∧
    (Quiet t root S c vec s → ∀ e ∈ t, (s.rank e).dones = 1) := by
  obtain ⟨A,hfit⟩ := hcal.fitting hrt hS
  have h := gathers_run hfit hrt hrun
  have hpar : ∀ a b, SendsTo t root s a b → ∃ q<A.degree b, A.child b q=a := by
    rintro a b ⟨ha,hne,hdst⟩
    obtain ⟨b',hb,q,hq,rfl⟩ := A.exists_parent a ha hne
    obtain rfl := some.inj (hdst.symm.trans ((h.rank _ ha).link b' hb q hq rfl).1)
    exact ⟨q,hq,rfl⟩
  refine ⟨fun ports hpor hle hone e he => (found hpor hrt he hone hle).1,fun e he => ?_,
    fun b hb a hsd => ?_,fun a v hv => ?_,fun hdn d hd hapa => h.root_blocks hfit hrt hdn hd hapa,
    fun hqui e he => hqui.done hrt h he⟩
  · exact ⟨(h.rank e he).failed,(h.rank e he).dones_le⟩
  · obtain ⟨q,hq,rfl⟩ := hpar a b hsd
    refine ⟨A.recvIndex_lt hb hq,fun a' hsd' heq => ?_⟩
    obtain ⟨p,hp,rfl⟩ := hpar a' b hsd'
    rw [A.recvIndex_inj hb hq hp heq]
  · obtain ⟨b,hb,q,hq,rfl,-,-,hv'⟩ := h.sender (by rw [hv]; rfl)
    obtain rfl := some.inj (hv.symm.trans hv')
    have ha := A.child_mem b hb q hq
    exact ⟨A.ranks (A.child b q),Gathers.place_sorted hrt ha,fun d => h.mem_ranks hrt ha,rfl⟩

theorem gatherRanks_nodup : [7,0,2,5].Nodup := by decide

def gatherRanks : Topology := ⟨[7, 0, 2, 5], gatherRanks_nodup⟩

def gatherCalls (e : ℕ) : GatherCall ℕ := ⟨fun _ => e, 1, 1, 1⟩

/-- The rank in between receives before it starts, and the root starts late. -/
def gatherEvents : List GatherEvent :=
  [.start 7, .transmit 7, .sent 7, .incoming 7, .arrive 7, .complete 7, .start 5, .transmit 5, .incoming 5, .arrive 5,
    .complete 5, .start 0, .start 2, .transmit 2, .incoming 2, .arrive 2, .complete 2]

theorem gather_runs_four : ∃ s : GatherSystem ℕ, (s.rank 0).dones = 1 ∧ readBytes (s.rank 0).rbuf 0 1 = [7] := by
  have heve : (execEvents (step gatherRanks 0 (tree 1 gatherRanks 0) gatherCalls none) gatherEvents
      (new gatherRanks 0 (tree 1 gatherRanks 0) gatherCalls none (fun _ _ => 9) fun _ _ => 9)).map
        (fun s => (s.rank 0).dones) = some 1 := by
    decide
  obtain ⟨s,hs,hdon⟩ := map_eq_some_iff.mp heve
  have hruns := gather_runs gatherRanks 0 (by decide) gatherCalls none (tree 1 gatherRanks 0)
    (.inl ⟨1,one_pos,by decide,.inl rfl,rfl,rfl⟩)
    ⟨fun _ _ => ⟨one_pos,one_pos⟩,fun _ _ _ => ⟨rfl,rfl⟩,fun v hv => by contradiction,by decide,by decide⟩ _ _ s
    (Run.refl.execEvents _ (fun _ _ _ => trivial) hs)
  exact ⟨s,hdon,hruns.2.2.2.2.1 hdon 7 (by decide) fun v hv => by contradiction⟩

/-- One value of each rank, in the order of the indices. -/
def gatherVectors : GatherVectors := ⟨id, fun _ => 1⟩

def vectorEvents : List GatherEvent := gatherEvents ++ [.sent 5, .sent 2]

/-- With vectors over a binomial schedule the root counts the message of a rank in between as one block: all have
started, and all messages are over, but it is not done. -/
theorem vectors_not_done : ¬ ∀ s : GatherSystem ℕ,
    Run (step gatherRanks 0 (tree 1 gatherRanks 0) gatherCalls (some gatherVectors)) (fun _ _ => True)
      (new gatherRanks 0 (tree 1 gatherRanks 0) gatherCalls (some gatherVectors) (fun _ _ => 9) fun _ _ => 9) s →
    (∀ e ∈ gatherRanks, (s.rank e).started = true ∧ (e ≠ 0 → (s.message e).sent = true ∧ (s.message e).complete = true)) →
    (s.rank 0).dones = 1 := by
  intro hall
  have heve : (execEvents (step gatherRanks 0 (tree 1 gatherRanks 0) gatherCalls (some gatherVectors))
      vectorEvents (new gatherRanks 0 (tree 1 gatherRanks 0) gatherCalls (some gatherVectors)
        (fun _ _ => 9) fun _ _ => 9)).map (fun s => (decide (∀ e ∈ gatherRanks.endpoints, (s.rank e).started=true ∧
          (e≠0 → (s.message e).sent=true ∧ (s.message e).complete=true)), (s.rank 0).dones)) = some (true, 0) := by
    decide
  obtain ⟨s,hs,hend⟩ := map_eq_some_iff.mp heve
  obtain ⟨hov,hdon⟩ := Prod.mk.inj hend
  have hone := hall s (Run.refl.execEvents _ (fun _ _ _ => trivial) hs) fun e he => of_decide_eq_true hov e he
  rw [hone] at hdon
  exact one_ne_zero hdon

end GatherSystem

end PAMI.Executor
