import Mathlib.Algebra.FreeMonoid.Basic
import PAMI.Executor.PartnerRuns
import PAMI.Math.Dissemination
import PAMI.Math.Scan
import PAMI.Schedule.GenericTree

namespace PAMI.Executor

open PAMI.Schedule Topology PartnerSystem List Option Nat

/-- The parameters of the schedule of a scan: a binomial tree. -/
def binomial : TreeParameters := ⟨1, 1, 2⟩

namespace ScanExec

/-- `MAX_PARALLEL_SCAN` -/
def maxParallel : ℕ := 20

/-- `MAX_CONCURRENT_SCAN` -/
def maxConcurrent : ℕ := 32

variable (topo : Topology) (me : ℕ)

/-- `_nphases` after `setSchedule`; `none` if an assertion of it fails. Every rank is the root of its schedule. -/
def setSchedule : Option ℕ := (GenericTreeSchedule.init binomial topo me me).bind fun s =>
    if s.lstartph = 0 ∧ binomial.nports ≠ 0 ∧ binomial.nports ≤ maxConcurrent ∧ s.nphs ≤ maxParallel then
      some s.nphs.toNat
    else none

/-- The loop of `setSchedule` that counts `_endphase`. -/
def countEndphase (size myindex : ℕ) : ℕ → ℕ → ℤ → ℤ
  | 0, _, endphase => endphase
  | fuel + 1, i, endphase =>
    if i < size then
      if i ≤ myindex then countEndphase size myindex fuel (i * 2) (endphase + 1) else endphase
    else endphase

def endphase : ℤ := countEndphase topo.size (topo.endpoint2Index me) topo.size 1 (-1)

def getSource (curphase : ℕ) : ℕ :=
  topo.index2Endpoint ((topo.endpoint2Index me + topo.size - 2 ^ curphase) % topo.size)

/-- The partner of a phase, as `sendNext` works it out: it receives only from before, and sends only to behind. -/
def partner (phase : ℕ) : Partner ℕ :=
  let myindex := topo.endpoint2Index me
  let src := getSource topo me phase
  let srcindex := topo.endpoint2Index src
  let dist := (myindex + topo.size - srcindex) % topo.size
  let dstindex := (myindex + topo.size + dist) % topo.size
  { source := src
    window := if srcindex < myindex then some ⟨phase + 1, 1⟩ else none
    dest := if myindex < dstindex then some (topo.index2Endpoint dstindex) else none
    length := 1 }

/-- The source that `notifyRecv` works out is that of the current phase, whatever the phase of the message. -/
def earlyPartner (curphase phase : ℕ) : Partner ℕ where
  source := getSource topo me curphase
  window := some ⟨phase + 1, 1⟩
  dest := none
  length := 1

variable {V : Type*} [Add V]

/-- `localReduce`, where `_reduceFunc` is the addition of the values. -/
def localReduce (exclusive : Bool) (curphase : ℕ) (x : Working V V) : Working V V :=
  if endphase topo me ≠ -1 ∧ (curphase : ℤ) - 1 ≤ endphase topo me then
    { tmpbuf := Function.update x.tmpbuf 0 (x.tmpbuf 0 + x.tmpbuf curphase)
      rbuf :=
        if exclusive then
          if curphase = 1 then x.tmpbuf curphase else x.rbuf + x.tmpbuf curphase
        else x.rbuf }
  else x

/-- The end of `sendNext` behind the last phase. -/
def finish (exclusive : Bool) (x : Working V V) : Working V V :=
  if exclusive then x else { x with rbuf := x.tmpbuf 0 }

def program (exclusive : Bool) : PartnerProgram ℕ V V where
  nothing := false
  nphases := (setSchedule topo me).getD 0
  partners := fun phase => [partner topo me phase]
  early := fun curphase phase => [earlyPartner topo me curphase phase]
  earlycnt := 1
  admits := fun phase => decide (endphase topo me = -1 ∨ (phase : ℤ) ≤ endphase topo me)
  localReduce := localReduce topo me exclusive
  finish := finish exclusive

end ScanExec

open PAMI.Math PhasedState Function

theorem splits_binomial (hT : 0<binomial.nports) (n : ℕ) :
    n ≤ 2^(binomial.splitting hT).splits n ∧ ∀ p < (binomial.splitting hT).splits n, 2^p<n := by
  induction n using Nat.strong_induction_on with
  | _ n ih =>
    by_cases h : 1<n
    · have hbig : (binomial.splitting hT).big n=(n+1)/2 := by
        show (binomial.pbig n : ℕ) = _
        simp only [TreeParameters.pbig,TreeParameters.room,ceiling,binomial]
        omega
      obtain ⟨hle,hlt⟩ := ih ((n+1)/2) (by omega)
      rw [Splitting.splits_of_lt h,hbig]
      refine ⟨?_,fun p hp => ?_⟩
      · rw [pow_succ]
        omega
      · cases p with
        | zero => exact h
        | succ p =>
          have hhalf := hlt p (lt_of_succ_lt_succ hp)
          rw [pow_succ]
          omega
    · rw [Splitting.splits_of_le (not_lt.mp h)]
      exact ⟨not_lt.mp h,fun p hp => absurd hp (Nat.not_lt_zero p)⟩

theorem splits_eq_doublings (hT : 0<binomial.nports) (n : ℕ) :
    (binomial.splitting hT).splits n = doublings n := by
  obtain ⟨hle,hlt⟩ := splits_binomial hT n
  apply le_antisymm
  · by_contra hgt
    exact absurd (hlt _ (not_le.mp hgt)) (not_lt.mpr (le_two_pow_doublings n))
  · by_contra hgt
    exact absurd (two_pow_lt_of_lt_doublings (not_le.mp hgt)) (not_lt.mpr hle)

namespace ScanExec

variable {t : Topology} {e : ℕ} {p : ℕ}

theorem setSchedule_eq (he : e ∈ t) :
    setSchedule t e = if t.size≤2^maxParallel then some (doublings t.size) else none := by
  have hpos := size_pos he
  have hzr : (t.endpoint2Index e+t.size-t.endpoint2Index e)%t.size=0 := by
    rw [Nat.add_sub_cancel_left,mod_self]
  obtain ⟨s,hs,hfin⟩ := @InitLoop.run_finds binomial (by decide) (t.endpoint2Index e) t.size
    (GenericTreeSchedule.start t e e) t.size
    (by simp only [GenericTreeSchedule.start,hzr]; exact hpos) (le_succ _)
  have hpha : s.phase=doublings t.size := by
    have hpha := hfin.phase
    simp only [GenericTreeSchedule.start,hzr] at hpha
    rw [Splitting.arrival_zero,Splitting.size_zero,splits_eq_doublings] at hpha
    omega
  have hiff : (doublings t.size : ℤ) ≤ maxParallel ↔ t.size≤2^maxParallel := by
    constructor
    · intro hle
      exact (le_two_pow_doublings t.size).trans (Nat.pow_le_pow_right two_pos (by exact_mod_cast hle))
    · intro hle
      by_contra hgt
      exact absurd (two_pow_lt_of_lt_doublings (N := t.size) (p := maxParallel) (by omega)) (not_lt.mpr hle)
  rw [setSchedule,GenericTreeSchedule.init,hs]
  simp only [map_some,bind_some,hpha,hiff]
  simp [binomial,maxConcurrent]

theorem countEndphase_spec {size myindex fuel k : ℕ} (hfuel : size≤fuel+k) (hk : ∀ q<k, 2^q ≤ myindex) :
    2^p < size → ((p : ℤ) ≤ countEndphase size myindex fuel (2^k) (k-1) ↔ 2^p ≤ myindex) := by
  intro hp
  induction fuel generalizing k with
  | zero =>
    have hlt : p<k := (Nat.lt_two_pow_self.trans hp).trans_le (by omega)
    rw [countEndphase]
    exact iff_of_true (by omega) (hk p hlt)
  | succ fuel ih =>
    rw [countEndphase]
    split
    case isFalse hge =>
      have hlt : p<k := (Nat.pow_lt_pow_iff_right one_lt_two).mp (hp.trans_le (not_lt.mp hge))
      exact iff_of_true (by omega) (hk p hlt)
    case isTrue hlt =>
      split
      case isTrue hle =>
        have hnx := ih (k := k+1) (by omega) fun q hq => ?_
        · rw [pow_succ] at hnx
          rw [show ((k : ℤ)-1+1)=((k+1 : ℕ) : ℤ)-1 by omega]
          exact hnx
        · obtain hq | rfl := Nat.lt_succ_iff_lt_or_eq.mp hq
          · exact hk q hq
          · exact hle
      case isFalse hgt =>
        constructor
        · intro hle
          exact hk p (by omega)
        · intro hle
          have hlt : p<k := (Nat.pow_lt_pow_iff_right one_lt_two).mp (hle.trans_lt (not_le.mp hgt))
          omega

theorem le_endphase_iff (hp : 2^p<t.size) : (p : ℤ) ≤ endphase t e ↔ 2^p ≤ t.endpoint2Index e :=
  countEndphase_spec (k := 0) le_rfl (fun q hq => absurd hq (Nat.not_lt_zero q)) hp

theorem partner_eq (he : e ∈ t) (hp : 2^p<t.size) :
    (partner t e p).window=(if 2^p ≤ t.endpoint2Index e then some ⟨p+1,1⟩ else none) ∧
      (partner t e p).dest=(if t.endpoint2Index e+2^p < t.size then
        some (t.index2Endpoint (t.endpoint2Index e+2^p)) else none) := by
  have hi := endpoint2Index_lt he
  have hpos := Nat.two_pow_pos p
  have hsrc : (t.endpoint2Index e+t.size-2^p)%t.size =
      if 2^p≤t.endpoint2Index e then t.endpoint2Index e-2^p
      else t.endpoint2Index e+t.size-2^p := by
    split
    case isTrue hle =>
      rw [show t.endpoint2Index e+t.size-2^p = t.endpoint2Index e-2^p+t.size by omega,
        add_mod_right,mod_eq_of_lt (by omega)]
    case isFalse hgt => exact mod_eq_of_lt (by omega)
  have hinx := endpoint2Index_index2Endpoint (t := t)
    (i := (t.endpoint2Index e+t.size-2^p)%t.size) (mod_lt _ (by omega))
  have hdist : (t.endpoint2Index e+t.size-(t.endpoint2Index e+t.size-2^p)%t.size)%t.size=2^p := by
    rw [hsrc]
    split
    case isTrue hle =>
      rw [show t.endpoint2Index e+t.size-(t.endpoint2Index e-2^p)=2^p+t.size by omega,
        add_mod_right,mod_eq_of_lt hp]
    case isFalse hgt =>
      rw [show t.endpoint2Index e+t.size-(t.endpoint2Index e+t.size-2^p)=2^p by omega,mod_eq_of_lt hp]
  have hdst : (t.endpoint2Index e+t.size+2^p)%t.size =
      if t.endpoint2Index e+2^p<t.size then t.endpoint2Index e+2^p
      else t.endpoint2Index e+2^p-t.size := by
    rw [show t.endpoint2Index e+t.size+2^p = t.endpoint2Index e+2^p+t.size by omega,add_mod_right]
    split
    case isTrue hlt => exact mod_eq_of_lt hlt
    case isFalse hge => rw [mod_eq_sub_mod (not_lt.mp hge),mod_eq_of_lt (by omega)]
  simp only [partner,getSource,hinx,hdist,hdst]
  constructor
  · refine if_congr ?_ rfl rfl
    rw [hsrc]
    split <;> omega
  · split
    case isTrue hlt => rw [if_pos (by omega)]
    case isFalse hge => rw [if_neg (by omega)]

/-- The schedule of all ranks: in a phase each sends to the one that is `2 ^ p` behind. -/
def tables (t : Topology) : PhaseTables ℕ where
  numphases := fun e => (setSchedule t e).getD 0
  dest := fun e n p =>
    if n = 1 ∧ e ∈ t ∧ t.size ≤ 2 ^ maxParallel ∧ t.endpoint2Index e + 2 ^ p < t.size then
      some (t.index2Endpoint (t.endpoint2Index e + 2 ^ p)) else none
  source := fun e n p =>
    if n = 1 ∧ e ∈ t ∧ t.size ≤ 2 ^ maxParallel ∧ 2 ^ p ≤ t.endpoint2Index e then
      some (t.index2Endpoint (t.endpoint2Index e - 2 ^ p)) else none
  matched := by
    intro a b n p
    simp only [ite_none_right_eq_some, Option.some.injEq]
    constructor
    · rintro ⟨⟨hn, ha, hsi, hlt⟩, rfl⟩
      rw [endpoint2Index_index2Endpoint hlt, Nat.add_sub_cancel, index2Endpoint_endpoint2Index ha]
      exact ⟨⟨hn, index2Endpoint_mem hlt, hsi, Nat.le_add_left _ _⟩, rfl⟩
    · rintro ⟨⟨hn, hb, hsi, hle⟩, rfl⟩
      have hlt := endpoint2Index_lt hb
      have hlow : t.endpoint2Index b - 2 ^ p < t.size := (sub_le _ _).trans_lt hlt
      rw [endpoint2Index_index2Endpoint hlow, Nat.sub_add_cancel hle, index2Endpoint_endpoint2Index hb]
      exact ⟨⟨hn, index2Endpoint_mem hlow, hsi, hlt⟩, rfl⟩
  bounded := by
    intro a b n p h
    obtain ⟨⟨-, ha, hsi, hlt⟩, rfl⟩ := ite_none_right_eq_some.mp h |>.imp id some.inj
    have hp : p < doublings t.size := by
      have hpow : 2 ^ p < 2 ^ doublings t.size := by
        have := le_two_pow_doublings t.size
        omega
      exact (Nat.pow_lt_pow_iff_right one_lt_two).mp hpow
    rw [setSchedule_eq ha, setSchedule_eq (index2Endpoint_mem hlt), if_pos hsi]
    exact ⟨hp, hp⟩

theorem paired {V : Type*} [Add V] (t : Topology) (hsi : t.size≤2^maxParallel) (exclusive : Bool) :
    Paired (fun e => program (V := V) t e exclusive) (tables t) (· ∈ t) (partner t) where
  nothing := fun _ => rfl
  numphases := fun _ => rfl
  partners := fun _ _ _ _ => rfl
  dest := by
    intro e p he hlt
    simp only [program,setSchedule_eq he,if_pos hsi,getD_some] at hlt
    rw [(partner_eq he (two_pow_lt_of_lt_doublings hlt)).2]
    simp only [tables,he,hsi,true_and]
  window := by
    intro e p he hlt
    simp only [program,setSchedule_eq he,if_pos hsi,getD_some] at hlt
    rw [(partner_eq he (two_pow_lt_of_lt_doublings hlt)).1]
    simp only [tables,he,hsi,true_and]
    split <;> rfl
  once := by
    intro a b n p h
    have hb := ((tables t).matched a b n p).mp h
    exact ⟨(ite_none_right_eq_some.mp h).1.1,(ite_none_right_eq_some.mp h).1.2.1,
      (ite_none_right_eq_some.mp hb).1.2.1⟩
  early := by
    intro a b p k h
    obtain ⟨⟨-,hb,-,hle⟩,-⟩ := ite_none_right_eq_some.mp h
    have hlt : 2^p<t.size := hle.trans_lt (endpoint2Index_lt hb)
    refine ⟨_,rfl,?_⟩
    rw [(partner_eq hb hlt).1,if_pos hle]
    rfl
  earlycnt := fun _ => rfl
  admits := by
    intro a b p h
    obtain ⟨⟨-,hb,-,hle⟩,-⟩ := ite_none_right_eq_some.mp h
    have hlt : 2^p<t.size := hle.trans_lt (endpoint2Index_lt hb)
    exact decide_eq_true (.inr ((le_endphase_iff hlt).mpr hle))
  length := by
    intro a b p h w hw
    obtain ⟨⟨-,hb,-,hle⟩,-⟩ := ite_none_right_eq_some.mp (((tables t).matched a b 1 p).mp h)
    have hlt : 2^p<t.size := hle.trans_lt (endpoint2Index_lt hb)
    rw [(partner_eq hb hlt).1,if_pos hle] at hw
    obtain rfl := some.inj hw
    rfl

open AddOpposite

variable {V : Type*} [AddSemigroup V] {came : ℕ → ℕ → Prop} {exclusive : Bool} {w : Working V V} {x : ℕ → V}
  {n : ℕ}

/-- The values of the ranks in the order of their indices; the last one comes first. -/
def values (t : Topology) (x : ℕ → V) (i : ℕ) : AddOpposite V := op (x (t.index2Endpoint i))

/-- What a rank has combined after some phases. -/
def combined (t : Topology) (x : ℕ → V) (p e : ℕ) : V := unop (trailing (values t x) p (t.endpoint2Index e))

def excluded (t : Topology) (x : ℕ → V) (p e : ℕ) : V := unop (preceding (values t x) p (t.endpoint2Index e))

/-- What a rank has at the begin of a phase, and of the messages that have come in; before the start, and in its
execution. -/
structure Holds (t : Topology) (exclusive : Bool) (x : ℕ → V) (e n p : ℕ) (came : ℕ → ℕ → Prop)
    (w : Working V V) : Prop where
  received : n ≤ 1 → ∀ k, came 1 k → w.tmpbuf (k + 1) = combined t x k (t.index2Endpoint (t.endpoint2Index e - 2 ^ k))
  own : n = 1 → w.tmpbuf 0 = combined t x p e
  before : n = 1 → exclusive = true → 0 < p → 0 < t.endpoint2Index e → w.rbuf = excluded t x p e
  whole : n = 1 → exclusive = false → p = doublings t.size → w.rbuf = combined t x p e

theorem combined_zero (he : e ∈ t) (x : ℕ → V) : combined t x 0 e = x e := by
  rw [combined,trailing_zero,values,unop_op,index2Endpoint_endpoint2Index he]

theorem combined_keep (x : ℕ → V) (h : t.endpoint2Index e < 2^p) : combined t x (p+1) e = combined t x p e := by
  rw [combined,trailing_keep h,combined]

theorem combined_succ (he : e ∈ t) (x : ℕ → V) (h : 2^p ≤ t.endpoint2Index e) : combined t x (p+1) e =
    combined t x p e+combined t x p (t.index2Endpoint (t.endpoint2Index e-2^p)) := by
  have hlow : t.endpoint2Index e-2^p<t.size := (sub_le _ _).trans_lt (endpoint2Index_lt he)
  rw [combined,trailing_append (Nat.sub_add_cancel h),unop_add,combined,combined,
    endpoint2Index_index2Endpoint hlow]

theorem excluded_one (he : e ∈ t) (x : ℕ → V) : excluded t x 1 e =
    combined t x 0 (t.index2Endpoint (t.endpoint2Index e-2^0)) := by
  have hlow : t.endpoint2Index e-1<t.size := (sub_le _ _).trans_lt (endpoint2Index_lt he)
  rw [excluded,preceding_one,pow_zero,combined_zero (index2Endpoint_mem hlow)]
  rfl

theorem excluded_keep (x : ℕ → V) (h : t.endpoint2Index e < 2^p) : excluded t x (p+1) e = excluded t x p e := by
  rw [excluded,preceding_keep h,excluded]

theorem excluded_succ (he : e ∈ t) (x : ℕ → V) (hp : 0<p) (h : 2^p ≤ t.endpoint2Index e) :
    excluded t x (p+1) e = excluded t x p e+combined t x p (t.index2Endpoint (t.endpoint2Index e-2^p)) := by
  have hlow : t.endpoint2Index e-2^p<t.size := (sub_le _ _).trans_lt (endpoint2Index_lt he)
  rw [excluded,preceding_append hp (Nat.sub_add_cancel h),unop_add,excluded,combined,
    endpoint2Index_index2Endpoint hlow]

section

variable (he : e ∈ t) (hsi : t.size ≤ 2 ^ maxParallel)
include he hsi

theorem Holds.settle
    (received : n≤1 → ∀ k, came 1 k → w.tmpbuf (k+1) = combined t x k (t.index2Endpoint (t.endpoint2Index e-2^k)))
    (own : n=1 → w.tmpbuf 0 = combined t x p e)
    (before : n=1 → exclusive=true → 0<p → 0 < t.endpoint2Index e → w.rbuf = excluded t x p e) :
    Holds t exclusive x e n p came ((program t e exclusive).settle p w) := by
  have hphs : (program (V := V) t e exclusive).nphases=doublings t.size := by
    simp only [program,setSchedule_eq he,if_pos hsi,getD_some]
  have hfns : (program (V := V) t e exclusive).finish=finish exclusive := rfl
  rw [PartnerProgram.settle,hphs,hfns]
  cases exclusive with
  | true =>
    have hsm : (if p=doublings t.size then finish true w else w)=w := ite_self w
    rw [hsm]
    exact ⟨received,own,before,fun _ hno => by contradiction⟩
  | false =>
    split
    case isTrue hend => exact ⟨received,own,fun _ hno => by contradiction,fun hn _ _ => own hn⟩
    case isFalse hne => exact ⟨received,own,fun _ hno => by contradiction,fun _ _ hend => absurd hend hne⟩

omit [AddSemigroup V] he hsi in
theorem write_one (o : ℕ) (v : V) (w : Working V V) (k : ℕ) :
    (w.write o [v]).tmpbuf k = if k=o then v else w.tmpbuf k := by
  simp only [Working.write]
  split
  case isTrue hle =>
    by_cases heq : k=o
    · rw [if_pos heq,heq,Nat.sub_self]
      rfl
    · rw [if_neg heq,List.getElem?_eq_none (by rw [length_singleton]; omega)]
      rfl
  case isFalse hgt => rw [if_neg (by omega)]

theorem holds_reset (h : Holds t exclusive x e n p came w) :
    Holds t exclusive x e (n+1) 0 came ((program t e exclusive).settle 0
      { w with tmpbuf := update w.tmpbuf 0 (x e) }) := by
  refine Holds.settle he hsi (fun hn k hk => ?_) (fun _ => ?_) fun _ _ hpos => absurd hpos (lt_irrefl 0)
  · simp only [update_of_ne (succ_ne_zero k)]
    exact h.received (by omega) k hk
  · simp only [update_self]
    exact (combined_zero he x).symm

theorem holds_pass (hlt : p < doublings t.size) (hcm : 2^p ≤ t.endpoint2Index e → came 1 p)
    (h : Holds t exclusive x e 1 p came w) :
    Holds t exclusive x e 1 (p+1) (fun n k => came n k ∧ ¬ (n=1 ∧ k=p))
      ((program t e exclusive).settle (p+1) (localReduce t e exclusive (p+1) w)) := by
  have hpow := two_pow_lt_of_lt_doublings hlt
  have hiff : (endphase t e ≠ -1 ∧ (((p+1 : ℕ) : ℤ)-1≤endphase t e)) ↔ 2^p≤t.endpoint2Index e := by
    rw [← le_endphase_iff hpow]
    omega
  rw [localReduce]
  simp only [hiff]
  split
  case isTrue hle =>
    have hrec := h.received le_rfl p (hcm hle)
    refine Holds.settle he hsi (fun _ k hk => ?_) (fun _ => ?_) fun _ hexc _ hpos => ?_
    · simp only [update_of_ne (succ_ne_zero k)]
      exact h.received le_rfl k hk.1
    · simp only [update_self]
      rw [h.own rfl,hrec,combined_succ he x hle]
    · simp only [hexc,if_true,hrec]
      cases p with
      | zero => rw [if_pos rfl,excluded_one he x]
      | succ p => rw [if_neg (by omega),h.before rfl hexc (succ_pos p) hpos,excluded_succ he x (succ_pos p) hle]
  case isFalse hgt =>
    refine Holds.settle he hsi (fun _ k hk => h.received le_rfl k hk.1) (fun _ => ?_)
      fun _ hexc _ hpos => ?_
    · rw [h.own rfl,combined_keep x (not_le.mp hgt)]
    · cases p with
      | zero => exact absurd hpos (by simpa using hgt)
      | succ p => rw [h.before rfl hexc (succ_pos p) hpos,excluded_keep x (not_le.mp hgt)]

end

theorem holds_incoming {k : ℕ} (h : Holds t exclusive x e n p came w) :
    Holds t exclusive x e n p (fun n' p' => came n' p' ∨ (n'=1 ∧ p'=k))
      (w.write (k+1) [combined t x k (t.index2Endpoint (t.endpoint2Index e-2^k))]) := by
  refine ⟨fun hn k' hk' => ?_,fun hn => ?_,h.before,h.whole⟩
  · rw [write_one]
    split
    case isTrue heq =>
      obtain rfl := succ_injective heq
      rfl
    case isFalse hne =>
      refine h.received hn k' (hk'.resolve_right fun hnow => hne ?_)
      rw [hnow.2]
  · rw [write_one,if_neg (succ_ne_zero k).symm]
    exact h.own hn

theorem carries (hsi : t.size≤2^maxParallel) (exclusive : Bool) (x : ℕ → V) :
    Carries (tables t) (client (fun e => program (V := V) t e exclusive) x (partner t))
      (fun _ _ _ _ => True) (fun _ => True) (fun a _ p => [combined t x p a])
      fun e n p came w => e ∈ t → Holds t exclusive x e n p came w where
  reset := fun s e _ _ h he => holds_reset he hsi (h he)
  pass := by
    intro s e ho hlt hcm h he
    have hphs : (tables t).numphases e = doublings t.size := by
      simp only [tables,setSchedule_eq he,if_pos hsi,getD_some]
    have hpos : 0 < s.exec e := by
      apply pos_of_ne_zero
      intro hzr
      exact absurd (ho.first e hzr) hlt.ne
    by_cases hone : s.exec e=1
    · rw [hone] at h hcm ⊢
      refine holds_pass he hsi (hphs ▸ hlt) (fun hle => ?_) (h he)
      exact hcm (t.index2Endpoint (t.endpoint2Index e-2^s.phase e)) trivial (if_pos ⟨rfl,he,hsi,hle⟩)
    · exact ⟨fun hn => absurd hn (by omega),fun hn => absurd hn hone,fun hn => absurd hn hone,
        fun hn => absurd hn hone⟩
  transmit := by
    intro s a b _ _ hds _ h
    obtain ⟨⟨hn,ha,-⟩,-⟩ := ite_none_right_eq_some.mp hds
    have hown := (h ha).own hn
    show (List.range 1).map (s.data a).tmpbuf = _
    rw [range_one,map_singleton,hown]
  incoming := by
    intro s a b n p _ _ _ hds _ _ _ h hb
    obtain ⟨⟨rfl,-,-,hle⟩,rfl⟩ := ite_some_none_eq_some.mp (((tables t).matched a b n p).mp hds)
    have hlt : 2^p<t.size := hle.trans_lt (endpoint2Index_lt hb)
    have hdel : (client (fun e => program (V := V) t e exclusive) x (partner t)).deliver b 1 p
        [combined t x p (t.index2Endpoint (t.endpoint2Index b-2^p))] (s.data b) =
          (s.data b).write (p+1) [combined t x p (t.index2Endpoint (t.endpoint2Index b-2^p))] := by
      simp only [client,(partner_eq hb hlt).1,if_pos hle,elim_some]
    rw [hdel]
    exact holds_incoming (h hb)
  plain := fun _ _ _ _ _ hno => absurd trivial hno

/-- The values of the ranks in the order of their indices. -/
def contribution (t : Topology) (x : ℕ → V) (i : ℕ) : V := x (t.index2Endpoint i)

theorem combined_all (he : e ∈ t) (x : ℕ → V) :
    combined t x (doublings t.size) e = descending (contribution t x) (t.endpoint2Index e) := by
  have hlt := (endpoint2Index_lt he).trans_le (le_two_pow_doublings t.size)
  rw [combined,trailing_all hlt]
  exact unop_total (contribution t x) _

theorem excluded_all (he : e ∈ t) (x : ℕ → V) :
    excluded t x (doublings t.size) e = descending (contribution t x) (t.endpoint2Index e-1) := by
  have hlt := (endpoint2Index_lt he).trans_le (le_two_pow_doublings t.size)
  rw [excluded,preceding_all hlt]
  exact unop_total (contribution t x) _

/-- A scan in any order of starts, messages and completions: each rank combines what it and the ranks before it take
part with, or only they, the last one first, and calls its done callback once. -/
theorem scan_runs (t : Topology) (hsi : t.size ≤ 2 ^ maxParallel) (exclusive : Bool) (x : ℕ → V)
    (data : ℕ → Working V V) (s : PartnerSystem ℕ V V)
    (h : Run (step (fun e => program t e exclusive) x) (Starts (· ∈ t)) (.new data) s) :
    (∀ e ∈ t, (setSchedule t e).isSome = true ∧ (s.rank e).failed = false ∧ (s.rank e).dones ≤ 1 ∧
      ((s.rank e).dones = 1 → (exclusive = false →
          (s.rank e).data.rbuf = descending (contribution t x) (t.endpoint2Index e)) ∧
        (exclusive = true → 0 < t.endpoint2Index e →
          (s.rank e).data.rbuf = descending (contribution t x) (t.endpoint2Index e - 1)))) ∧
      (PartnerSystem.Quiet (fun e => program t e exclusive) x (· ∈ t) s → ∀ e ∈ t, (s.rank e).dones = 1) ∧
      ((∀ v w : V, v + w = w + v) → ∀ r, descending (contribution t x) r = total (contribution t x) 0 r) := by
  have hP := paired (V := V) t hsi exclusive
  have hs := exchanging_run hP h
  obtain ⟨-,hcar⟩ := carried_run (carries hsi exclusive x)
    (fun e _ => ⟨fun _ _ hno => hno.elim,fun hn => by contradiction,fun hn => by contradiction,
      fun hn => by contradiction⟩) hs.run
  refine ⟨fun e he => ?_,fun hqui e he => (hqui.done hP hs he).2,fun hcomm r => descending_eq_total hcomm _ r⟩
  have hr := hs.counts e
  have hphs : (program (V := V) t e exclusive).nphases=doublings t.size := by
    simp only [program,setSchedule_eq he,if_pos hsi,getD_some]
  refine ⟨by rw [setSchedule_eq he,if_pos hsi]; rfl,hr.failed,hr.dones_le,fun hdn => ?_⟩
  have hstr : (s.rank e).started=true := by
    by_contra hno
    have hid := (hr.idle (Bool.not_eq_true _ ▸ hno)).2.1
    omega
  obtain ⟨hex,hpha⟩ := phase_of_started (P := fun e => program t e exclusive) (T := tables t) s hstr
  have hhol := hcar.party e he
  rw [hex,hpha,hr.done hdn,hphs,hs.view_eq e] at hhol
  refine ⟨fun hinc => ?_,fun hexc hpos => ?_⟩
  · rw [hhol.whole rfl hinc rfl,combined_all he]
  · have hmn : 0<doublings t.size := by
      apply pos_of_ne_zero
      intro hzr
      have hle := le_two_pow_doublings t.size
      rw [hzr,pow_zero] at hle
      have := endpoint2Index_lt he
      omega
    rw [hhol.before rfl hexc hmn hpos,excluded_all he]

def twoRanks : Topology := ⟨[0, 1], by decide⟩

/-- The message of rank 0 comes in before rank 1 starts. -/
def earlyEvents : List (PartnerEvent ℕ) :=
  [.start 0, .transmit 0 0 0, .incoming 0 0 0, .complete 0 0 0, .sent 0 0 0, .start 1]

theorem scan_runs_two : ∃ s : PartnerSystem ℕ ℕ ℕ, (s.rank 1).dones = 1 ∧ (s.rank 1).data.rbuf = 30 := by
  have heve : (execEvents (fun s e => if Starts (· ∈ twoRanks) s e then
      s.step (fun e => program twoRanks e false) (fun e => 10 * (e + 1)) e else none) earlyEvents
      (new fun _ => ⟨fun _ => 0,0⟩)).map (fun s => (s.rank 1).dones) = some 1 := by
    decide
  obtain ⟨s,hs,hdon⟩ := map_eq_some_iff.mp heve
  have hruns := scan_runs twoRanks (by decide) false (fun e => 10 * (e + 1)) _ s (Run.refl.checked _ hs)
  exact ⟨s,hdon,((hruns.1 1 (by decide)).2.2.2 hdon).1 rfl⟩

theorem setSchedule_many (h : 2^maxParallel<n) :
    setSchedule ⟨List.range n,nodup_range⟩ 0 = none := by
  have hmem : 0 ∈ (⟨List.range n,nodup_range⟩ : Topology) := mem_range.mpr ((zero_le _).trans_lt h)
  have hsi : (⟨List.range n,nodup_range⟩ : Topology).size=n := length_range
  rw [setSchedule_eq hmem,hsi,if_neg (not_le.mpr h)]

/-- Where the order matters, the values are combined the other way round; and for more ranks than the assertion admits,
there is no executor. -/
theorem descending_order : (¬ ∀ s : PartnerSystem ℕ (FreeAddMonoid ℕ) (FreeAddMonoid ℕ),
    Run (step (fun e => program twoRanks e false) FreeAddMonoid.of) (Starts (· ∈ twoRanks))
      (.new fun _ => ⟨fun _ => 0, 0⟩) s → (s.rank 1).dones = 1 →
    (s.rank 1).data.rbuf = total (contribution twoRanks FreeAddMonoid.of) 0 1) ∧
    setSchedule ⟨List.range (2 ^ maxParallel + 1), nodup_range⟩ 0 = none := by
  constructor
  · intro hall
    have heve : (execEvents (fun s e => if Starts (· ∈ twoRanks) s e then
        s.step (fun e => program twoRanks e false) FreeAddMonoid.of e else none) earlyEvents
        (new fun _ => ⟨fun _ => (0 : FreeAddMonoid ℕ),(0 : FreeAddMonoid ℕ)⟩)).map
        (fun s => ((s.rank 1).dones, (s.rank 1).data.rbuf.toList)) = some (1, [1,0]) := by
      decide
    obtain ⟨s,hs,hend⟩ := map_eq_some_iff.mp heve
    obtain ⟨hdon,hrbuf⟩ := Prod.mk.inj hend
    have hval := hall s (Run.refl.checked _ hs) hdon
    rw [hval] at hrbuf
    contradiction
  · exact setSchedule_many (lt_succ_self (2 ^ maxParallel))

end ScanExec

end PAMI.Executor
