import PAMI.Executor.PartnerRuns
import PAMI.Math.CircularBuffer
import PAMI.Schedule.SingleTree

namespace PAMI.Executor

open PAMI.Schedule Topology GenericTreeSchedule PartnerSystem List Option Nat Function

namespace AllgatherExec

def maxConcurrent : ℕ := 32

variable (ports : ℕ) (topo : Topology) (me : ℕ)

/-- `setSchedule`; `none` if an assertion of it fails. Every rank is the root of its schedule. -/
def setSchedule : Option GenericTreeSchedule := (init (knomial ports) topo me me).bind fun s =>
    if s.lstartph = 0 ∧ ports ≠ 0 ∧ ports ≤ maxConcurrent then some s else none

/-- How far a source is in front of the rank: its blocks come to this place of the temporary buffer. -/
def dist (src : ℕ) : ℕ := (topo.endpoint2Index src + topo.size - topo.endpoint2Index me) % topo.size

def dstrank (src : ℕ) : ℕ := topo.index2Endpoint ((topo.endpoint2Index me + topo.size - dist topo me src) % topo.size)

/-- The partners of a phase, with the sources of `getRList`. -/
def partners (s : GenericTreeSchedule) (phase : ℕ) : List (Partner ℕ) :=
  ((s.getRList (s.nphs - phase - 1)).zip (s.getRLens (s.nphs - phase - 1))).map fun q =>
    { source := q.1
      window := some ⟨dist topo me q.1, q.2⟩
      dest := some (dstrank topo me q.1)
      length := q.2 }

variable {V : Type*}

/-- The end of `sendNext` behind the last phase: the blocks from the own one on go to their places, and the others to the
begin of the buffer. -/
def finish (x : Working V (ℕ → V)) : Working V (ℕ → V) :=
  let myindex := topo.endpoint2Index me
  { x with rbuf := fun i =>
      if i < myindex then x.tmpbuf (topo.size - myindex + i)
      else if i < topo.size then x.tmpbuf (i - myindex)
      else x.rbuf i }

/-- The executor of a rank, for blocks of `_buflen` bytes. A message that is early has one partner, whatever the
schedule. -/
def program (buflen : ℕ) : PartnerProgram ℕ V (ℕ → V) where
  nothing := decide (buflen = 0)
  nphases := (setSchedule ports topo me).elim 0 fun s => s.nphs.toNat
  partners := fun phase => (setSchedule ports topo me).elim [] fun s => partners topo me s phase
  early := fun _ phase => (setSchedule ports topo me).elim [] fun s => partners topo me s phase
  earlycnt := 1
  admits := fun _ => true
  localReduce := fun _ x => x
  finish := finish topo me

end AllgatherExec

open PAMI.Math PhasedState

section Knomial

variable {ports N n p : ℕ}

def nphases (hpor : 0 < (knomial ports).nports) (N : ℕ) : ℕ := ((knomial ports).splitting hpor).splits N

/-- How many blocks a rank has at the begin of a phase. -/
def known (hpor : 0 < (knomial ports).nports) (N p : ℕ) : ℕ := (knomial ports).pbig^[nphases hpor N - p] N

variable {hpor : 0 < (knomial ports).nports}

theorem known_zero (hN : 0<N) : known hpor N 0 = 1 := (iterate_pbig _ hN).1

theorem known_nphases : known hpor N (nphases hpor N) = N := by
  rw [known,Nat.sub_self,iterate_zero,id_eq]

theorem known_pos (hN : 0<N) (p : ℕ) : 0 < known hpor N p := (iterate_pbig_le hpor hN _).2

theorem known_le (hN : 0<N) (p : ℕ) : known hpor N p ≤ N := (iterate_pbig_le hpor hN _).1

section

variable (h : OneChild ports N) (hN : 0 < N) (hp : p < nphases hpor N)
include h hN hp

theorem known_succ : 1 < known hpor N (p+1) ∧ known hpor N p = (known hpor N (p+1)+1)/2 := by
  have hmn : 1<known hpor N (p+1) :=
    (iterate_pbig hpor hN).2 (nphases hpor N-(p+1)) (by rw [nphases] at hp ⊢; omega)
  have hsc : nphases hpor N-p = nphases hpor N-(p+1)+1 := by omega
  have hite : known hpor N p = (knomial ports).pbig (known hpor N (p+1)) := by
    rw [known,hsc,iterate_succ_apply']
    rfl
  exact ⟨hmn,hite.trans (knomial_pbig h hpor hmn (known_le hN _))⟩

theorem known_lt :
    known hpor N p < known hpor N (p+1) ∧ known hpor N (p+1) ≤ 2*known hpor N p := by
  obtain ⟨hmn,hhalf⟩ := known_succ h hN hp
  omega

omit h hN hp in
theorem known_mono (h : OneChild ports N) (hN : 0<N) {k : ℕ} (hpk : p≤k) (hk : k ≤ nphases hpor N) :
    known hpor N p ≤ known hpor N k := by
  induction k, hpk using le_induction with
  | base => exact le_rfl
  | succ k _ ih => exact (ih (le_of_succ_le hk)).trans (known_lt h hN hk).1.le

theorem known_lt_size : known hpor N p < N := (known_lt h hN hp).1.trans_le (known_le hN _)

end

end Knomial

namespace AllgatherExec

variable {ports p e : ℕ} {t : Topology} {hpor : 0 < (knomial ports).nports}

def partner (hpor : 0 < (knomial ports).nports) (t : Topology) (e p : ℕ) : Partner ℕ where
  source := t.index2Endpoint ((t.endpoint2Index e + known hpor t.size p) % t.size)
  window := some ⟨known hpor t.size p, known hpor t.size (p + 1) - known hpor t.size p⟩
  dest := some (t.index2Endpoint ((t.endpoint2Index e + t.size - known hpor t.size p) % t.size))
  length := known hpor t.size (p + 1) - known hpor t.size p

variable (hpor) in
theorem dist_eq (he : e ∈ t) (h : OneChild ports t.size) (hp : p < nphases hpor t.size) :
    dist t e (partner hpor t e p).source = known hpor t.size p := by
  rw [dist,partner,endpoint2Index_index2Endpoint (mod_lt _ (size_pos he))]
  exact turn_sub (endpoint2Index_lt he) (known_lt_size h (size_pos he) hp)

variable (hpor) in
theorem setSchedule_eq (he : e ∈ t) (h : OneChild ports t.size) (hle : ports ≤ maxConcurrent) :
    ∃ s, setSchedule ports t e = some s ∧ s.nphs = nphases hpor t.size ∧
      ∀ p < nphases hpor t.size, partners t e s p = [partner hpor t e p] := by
  have hpos := size_pos he
  have hpor' : 0<ports := hpor
  obtain ⟨s,hs,hf⟩ := init_single (single_knomial h hpor) he he
  have hzr : place t e e=0 := place_root he
  have hsi : subtree hpor t e e=t.size := by rw [subtree,hzr,Splitting.size_zero]
  have hfir : first hpor t e e=0 := by rw [first,hzr,Splitting.arrival_zero]
  have hdeg : degree hpor t e e = nphases hpor t.size := by
    rw [degree,hsi]
    rfl
  have hnphs : s.nphs=nphases hpor t.size := by rw [hf.nphs,hfir,hdeg,cast_zero,zero_add]
  refine ⟨s,?_,hnphs,fun p hp => ?_⟩
  · rw [setSchedule,hs]
    exact if_pos ⟨by rw [hf.lstartph,if_pos hzr],hpor'.ne',hle⟩
  · have hla : s.nphs-p-1=((0+(nphases hpor t.size-(p+1)) : ℕ) : ℤ) := by omega
    have hsub : nphases hpor t.size-(p+1)+1 = nphases hpor t.size-p := by omega
    obtain ⟨hli,hlens⟩ := hf.getRList (q := nphases hpor t.size-(p+1)) h (by rw [hzr]; exact hpos)
      (by rw [hdeg]; omega)
    rw [hfir,hsi,hsub] at hli hlens
    rw [partners,hla,hli,hlens]
    have hdist := dist_eq hpor he h hp
    have hdst : dstrank t e (partner hpor t e p).source =
        t.index2Endpoint ((t.endpoint2Index e+t.size-known hpor t.size p)%t.size) := by rw [dstrank,hdist]
    have hlng : (knomial ports).pbig^[nphases hpor t.size-(p+1)] t.size -
        (knomial ports).pbig^[nphases hpor t.size-p] t.size=(partner hpor t e p).length := rfl
    have hsou : t.index2Endpoint
        ((t.endpoint2Index e+(knomial ports).pbig^[nphases hpor t.size-p] t.size)%t.size) =
          (partner hpor t e p).source := rfl
    rw [hlng,hsou,zip_cons_cons,zip_nil_left,map_cons,map_nil,hdist,hdst]
    rfl

variable (hpor) in
theorem program_eq {V : Type*} (buflen : ℕ) (he : e ∈ t) (h : OneChild ports t.size)
    (hle : ports ≤ maxConcurrent) : (program (V := V) ports t e buflen).nphases = nphases hpor t.size ∧
      (∀ p < nphases hpor t.size, (program (V := V) ports t e buflen).partners p = [partner hpor t e p]) ∧
      ∀ k, ∀ p < nphases hpor t.size, (program (V := V) ports t e buflen).early k p = [partner hpor t e p] := by
  obtain ⟨s,hs,hnphs,hprt⟩ := setSchedule_eq hpor he h hle
  simp only [program,hs,elim_some,hnphs,Int.toNat_natCast,true_and]
  exact ⟨hprt,fun _ => hprt⟩

/-- The schedule of all ranks: a rank sends to the one that is as far behind as it has blocks. -/
def tables (hpor : 0 < (knomial ports).nports) (t : Topology) (h : OneChild ports t.size)
    (hle : ports ≤ maxConcurrent) : PhaseTables ℕ where
  numphases := fun e => (setSchedule ports t e).elim 0 fun s => s.nphs.toNat
  dest := fun e n p => if n = 1 ∧ e ∈ t ∧ p < nphases hpor t.size then (partner hpor t e p).dest else none
  source := fun e n p =>
    if n = 1 ∧ e ∈ t ∧ p < nphases hpor t.size then some (partner hpor t e p).source else none
  matched := by
    intro a b n p
    simp only [partner, ite_none_right_eq_some, Option.some.injEq]
    constructor
    · rintro ⟨⟨hn, ha, hp⟩, rfl⟩
      have hlt : (t.endpoint2Index a + t.size - known hpor t.size p) % t.size < t.size := mod_lt _ (size_pos ha)
      rw [endpoint2Index_index2Endpoint hlt, turn_back_turn (endpoint2Index_lt ha) (known_le (size_pos ha) p),
        index2Endpoint_endpoint2Index ha]
      exact ⟨⟨hn, index2Endpoint_mem hlt, hp⟩, rfl⟩
    · rintro ⟨⟨hn, hb, hp⟩, rfl⟩
      have hlt : (t.endpoint2Index b + known hpor t.size p) % t.size < t.size := mod_lt _ (size_pos hb)
      rw [endpoint2Index_index2Endpoint hlt, turn_turn_back (endpoint2Index_lt hb) (known_le (size_pos hb) p),
        index2Endpoint_endpoint2Index hb]
      exact ⟨⟨hn, index2Endpoint_mem hlt, hp⟩, rfl⟩
  bounded := by
    intro a b n p hds
    obtain ⟨⟨-, ha, hp⟩, hb⟩ := ite_none_right_eq_some.mp hds
    have hb : b ∈ t := by
      obtain rfl := some.inj hb
      exact index2Endpoint_mem (mod_lt _ (size_pos ha))
    have hnph : ∀ e ∈ t, (setSchedule ports t e).elim 0 (fun s => s.nphs.toNat) = nphases hpor t.size :=
      fun e he => (program_eq _ (V := ℕ) 0 he h hle).1
    rw [hnph a ha, hnph b hb]
    exact ⟨hp, hp⟩

variable (hpor) in
theorem paired {V : Type*} (t : Topology) (h : OneChild ports t.size) (hle : ports ≤ maxConcurrent) {buflen : ℕ}
    (hbuf : buflen≠0) : Paired (fun e => program (V := V) ports t e buflen) (tables hpor t h hle) (· ∈ t)
      (partner hpor t) where
  nothing := fun _ => decide_eq_false hbuf
  numphases := fun _ => rfl
  partners := by
    intro e p he hlt
    obtain ⟨hnph,hprt,-⟩ := program_eq hpor (V := V) buflen he h hle
    exact hprt p (hnph ▸ hlt)
  dest := by
    intro e p he hlt
    rw [(program_eq hpor buflen he h hle).1] at hlt
    exact (if_pos ⟨rfl,he,hlt⟩).symm
  window := by
    intro e p he hlt
    rw [(program_eq hpor buflen he h hle).1] at hlt
    have hsou : (tables hpor t h hle).source e 1 p = some (partner hpor t e p).source := if_pos ⟨rfl,he,hlt⟩
    rw [hsou]
    rfl
  once := by
    intro a b n p hds
    have hb := ((tables hpor t h hle).matched a b n p).mp hds
    exact ⟨(ite_none_right_eq_some.mp hds).1.1,(ite_none_right_eq_some.mp hds).1.2.1,
      (ite_none_right_eq_some.mp hb).1.2.1⟩
  early := by
    intro a b p k hsou
    obtain ⟨⟨-,hb,hp⟩,-⟩ := ite_none_right_eq_some.mp hsou
    exact ⟨_,(program_eq _ buflen hb h hle).2.2 k p hp,rfl⟩
  earlycnt := fun _ => rfl
  admits := fun _ _ _ _ => rfl
  length := by
    intro a b p _ w hw
    obtain rfl := some.inj hw
    rfl

section Blocks

variable {V : Type*} {x : ℕ → V} {n : ℕ} {came : ℕ → ℕ → Prop} {w : Working V (ℕ → V)}

def block (t : Topology) (x : ℕ → V) (i : ℕ) : V := x (t.index2Endpoint (i % t.size))

theorem block_mod_add (t : Topology) (x : ℕ → V) (i j : ℕ) : block t x (i%t.size+j) = block t x (i+j) := by
  rw [block,mod_add_mod,block]

def message (hpor : 0 < (knomial ports).nports) (t : Topology) (x : ℕ → V) (a p : ℕ) : List V :=
  (List.range (known hpor t.size (p + 1) - known hpor t.size p)).map fun j => block t x (t.endpoint2Index a + j)

/-- The blocks that a rank has at the begin of a phase, and those that have come in; before the start, and in its
execution. -/
structure Holds (hpor : 0 < (knomial ports).nports) (t : Topology) (x : ℕ → V) (e n p : ℕ) (came : ℕ → ℕ → Prop)
    (w : Working V (ℕ → V)) : Prop where
  received : n ≤ 1 → ∀ k < nphases hpor t.size, came 1 k →
    ∀ j, known hpor t.size k ≤ j → j < known hpor t.size (k + 1) → w.tmpbuf j = block t x (t.endpoint2Index e + j)
  own : n = 1 → ∀ j < known hpor t.size p, w.tmpbuf j = block t x (t.endpoint2Index e + j)
  whole : n = 1 → p = nphases hpor t.size → ∀ i < t.size, w.rbuf i = x (t.index2Endpoint i)

theorem finish_eq (he : e ∈ t) (hown : ∀ j<t.size, w.tmpbuf j = block t x (t.endpoint2Index e+j)) {i : ℕ}
    (hi : i<t.size) : (finish t e w).rbuf i = x (t.index2Endpoint i) := by
  have hinx := endpoint2Index_lt he
  simp only [finish,if_pos hi]
  split
  case isTrue hlt =>
    have hpla : t.endpoint2Index e+(t.size-t.endpoint2Index e+i)=i+t.size := by omega
    rw [hown _ (by omega),block,hpla,add_mod_right,mod_eq_of_lt hi]
  case isFalse hge =>
    have hpla : t.endpoint2Index e+(i-t.endpoint2Index e)=i := by omega
    rw [hown _ (by omega),block,hpla,mod_eq_of_lt hi]

section

variable (he : e ∈ t) (h : OneChild ports t.size)
include he h

theorem Holds.settle {buflen : ℕ} (hle : ports ≤ maxConcurrent)
    (received : n≤1 → ∀ k < nphases hpor t.size, came 1 k → ∀ j, known hpor t.size k ≤ j →
      j < known hpor t.size (k+1) → w.tmpbuf j = block t x (t.endpoint2Index e+j))
    (own : n=1 → ∀ j < known hpor t.size p, w.tmpbuf j = block t x (t.endpoint2Index e+j)) :
    Holds hpor t x e n p came ((program ports t e buflen).settle p w) := by
  have hphs := (program_eq hpor (V := V) buflen he h hle).1
  have hfns : (program (V := V) ports t e buflen).finish=finish t e := rfl
  rw [PartnerProgram.settle,hphs,hfns]
  split
  case isFalse hne => exact ⟨received,own,fun _ hend => absurd hend hne⟩
  case isTrue hend =>
    refine ⟨received,own,fun hn _ i hi => finish_eq he (fun j hj => ?_) hi⟩
    apply own hn
    rw [hend,known_nphases]
    exact hj

theorem holds_reset {buflen : ℕ} (hle : ports ≤ maxConcurrent) (hw : Holds hpor t x e n p came w) :
    Holds hpor t x e (n+1) 0 came
      ((program ports t e buflen).settle 0 { w with tmpbuf := Function.update w.tmpbuf 0 (x e) }) := by
  have hpos := size_pos he
  apply Holds.settle he h hle
  · intro hn k hk hcm j hlow hhg
    have hj : j≠0 := ((known_pos hpos k).trans_le hlow).ne'
    simp only [update_of_ne hj]
    exact hw.received (by omega) k hk hcm j hlow hhg
  · intro _ j hj
    rw [known_zero hpos] at hj
    obtain rfl := lt_one_iff.mp hj
    simp only [update_self]
    rw [block,add_zero,mod_eq_of_lt (endpoint2Index_lt he),index2Endpoint_endpoint2Index he]

theorem holds_pass {buflen : ℕ} (hle : ports ≤ maxConcurrent) (hp : p < nphases hpor t.size)
    (hcm : came 1 p) (hw : Holds hpor t x e 1 p came w) :
    Holds hpor t x e 1 (p+1) (fun n k => came n k ∧ ¬ (n=1 ∧ k=p))
      ((program ports t e buflen).settle (p+1) w) := by
  apply Holds.settle he h hle
  · intro _ k hk hsti
    exact hw.received le_rfl k hk hsti.1
  · intro _ j hj
    by_cases hlow : j<known hpor t.size p
    · exact hw.own rfl j hlow
    · exact hw.received le_rfl p hp hcm j (not_lt.mp hlow) hj

theorem Holds.payload (hp : p < nphases hpor t.size) (hw : Holds hpor t x e 1 p came w) :
    (List.range (partner hpor t e p).length).map w.tmpbuf = message hpor t x e p := by
  apply map_congr_left
  intro j hj
  have hlt := known_lt h (size_pos he) hp
  have hj : j<known hpor t.size (p+1)-known hpor t.size p := mem_range.mp hj
  exact hw.own rfl j (by omega)

omit he h in
theorem tmpbuf_write (o l : ℕ) (f : ℕ → V) (w : Working V (ℕ → V)) (j : ℕ) :
    (w.write o ((List.range l).map f)).tmpbuf j = if o≤j ∧ j<o+l then f (j-o) else w.tmpbuf j := by
  simp only [Working.write,List.getElem?_map]
  split
  case isFalse hlow => rw [if_neg fun hin => hlow hin.1]
  case isTrue hlow =>
    by_cases hhg : j<o+l
    · rw [if_pos ⟨hlow,hhg⟩,List.getElem?_range (by omega)]
      rfl
    · rw [if_neg fun hin => hhg hin.2,List.getElem?_eq_none (by rw [length_range]; omega)]
      rfl

omit he h in
theorem message_eq (he : e ∈ t) (x : ℕ → V) (p : ℕ) : message hpor t x (partner hpor t e p).source p =
      (List.range (known hpor t.size (p+1)-known hpor t.size p)).map
        fun j => block t x (t.endpoint2Index e+(known hpor t.size p+j)) := by
  have hinx : t.endpoint2Index (partner hpor t e p).source=(t.endpoint2Index e+known hpor t.size p)%t.size :=
    endpoint2Index_index2Endpoint (mod_lt _ (size_pos he))
  rw [message,hinx]
  apply map_congr_left
  intro j _
  rw [block_mod_add,add_assoc]

theorem holds_incoming {k : ℕ} (hk : k < nphases hpor t.size) (hcur : n=1 → p≤k)
    (hw : Holds hpor t x e n p came w) :
    Holds hpor t x e n p (fun n' p' => came n' p' ∨ (n'=1 ∧ p'=k))
      (w.write (known hpor t.size k) (message hpor t x (partner hpor t e k).source k)) := by
  have hpos := size_pos he
  have hlt := known_lt h hpos hk
  rw [message_eq he]
  refine ⟨fun hn q hq hcm j hlow hhg => ?_,fun hn j hj => ?_,hw.whole⟩
  · rw [tmpbuf_write]
    split
    case isTrue hin => rw [Nat.add_sub_cancel' hin.1]
    case isFalse hout =>
      refine hw.received hn q hq (hcm.resolve_right fun hnow => hout ?_) j hlow hhg
      rw [hnow.2] at hlow hhg
      omega
  · have hmono := known_mono h hpos (hcur hn) hk.le
    rw [tmpbuf_write,if_neg (by omega)]
    exact hw.own hn j hj

end

end Blocks

variable (hpor) in
theorem carries {V : Type*} (h : OneChild ports t.size) (hle : ports ≤ maxConcurrent) (buflen : ℕ) (x : ℕ → V) :
    Carries (tables hpor t h hle) (client (fun e => program ports t e buflen) x (partner hpor t))
      (fun _ _ _ _ => True) (fun _ => True) (fun a _ p => message hpor t x a p)
      fun e n p came w => e ∈ t → Holds hpor t x e n p came w where
  reset := fun s e _ _ hw he => holds_reset he h hle (hw he)
  pass := by
    intro s e ho hlt hcm hw he
    have hphs : (tables hpor t h hle).numphases e = nphases hpor t.size := (program_eq _ (V := V) buflen he h hle).1
    have hpos : 0 < s.exec e := by
      apply pos_of_ne_zero
      intro hzr
      exact absurd (ho.first e hzr) hlt.ne
    by_cases hone : s.exec e=1
    · rw [hone] at hw hcm ⊢
      rw [hphs] at hlt
      exact holds_pass he h hle hlt (hcm _ trivial (if_pos ⟨rfl,he,hlt⟩)) (hw he)
    · exact ⟨fun hn => absurd hn (by omega),fun hn => absurd hn hone,fun hn => absurd hn hone⟩
  transmit := by
    intro s a b _ _ hds _ hw
    obtain ⟨⟨hn,ha,hp⟩,-⟩ := ite_none_right_eq_some.mp hds
    rw [hn] at hw
    exact (hw ha).payload ha h hp
  incoming := by
    intro s a b n p _ _ _ hds _ hpas _ hw hb
    obtain ⟨⟨rfl,-,hp⟩,hsou⟩ := ite_none_right_eq_some.mp (((tables hpor t h hle).matched a b n p).mp hds)
    obtain rfl := some.inj hsou
    apply holds_incoming hb h hp _ (hw hb)
    intro hn
    by_contra hlt
    exact hpas ⟨one_pos,.inr ⟨hn.symm,not_le.mp hlt⟩⟩
  plain := fun _ _ _ _ _ hno => absurd trivial hno

/-- An allgather with one source in each phase, in any order of starts, messages and completions: a message is as long
as the place of its receiver for it, each rank gets the blocks of all, and calls its done callback once. -/
theorem block_runs {β : Type*} (ports : ℕ) (hpor : 0 < ports) (hle : ports ≤ maxConcurrent) (t : Topology)
    (h : OneChild ports t.size) (buflen : ℕ) (x : ℕ → Fin buflen → β)
    (data : ℕ → Working (Fin buflen → β) (ℕ → Fin buflen → β))
    (s : PartnerSystem ℕ (Fin buflen → β) (ℕ → Fin buflen → β))
    (hrun : Run (step (fun e => program ports t e buflen) x) (Starts (· ∈ t)) (.new data) s) :
    (∀ e ∈ t, (setSchedule ports t e).isSome = true ∧ (s.rank e).failed = false ∧ (s.rank e).dones ≤ 1 ∧
      ((s.rank e).dones = 1 → ∀ i < t.size, (s.rank e).data.rbuf i = x (t.index2Endpoint i))) ∧
      (∀ a p i m b, (s.message a p i).data = some m →
        dest (fun e => program (V := Fin buflen → β) ports t e buflen) a p i = some b →
        ∃ q w, ((program (V := Fin buflen → β) ports t b buflen).partners p)[i]? = some q ∧ q.source = a ∧
          q.window = some w ∧ w.length = m.length) ∧
      (PartnerSystem.Quiet (fun e => program ports t e buflen) x (· ∈ t) s → ∀ e ∈ t, (s.rank e).dones = 1) := by
  have hsch : ∀ e ∈ t, (setSchedule ports t e).isSome=true := by
    intro e he
    obtain ⟨s,hs,-⟩ := setSchedule_eq hpor he h hle
    rw [hs]
    rfl
  obtain rfl | hbuf := Nat.eq_zero_or_pos buflen
  · have hs := idle_run (P := fun e => program ports t e 0) (fun _ => rfl) hrun
    refine ⟨fun e he => ⟨hsch e he,hs.failed e,?_,fun _ i _ => funext fun k => k.elim0⟩,
      fun a p i m b hda => ?_,fun hqui e he => ?_⟩
    · rw [hs.dones e]
      exact Bool.toNat_le _
    · rw [(hs.message a p i).1] at hda
      contradiction
    · rw [hs.dones e,hqui.started he]
      rfl
  · have hP := paired hpor (V := Fin buflen → β) t h hle hbuf.ne'
    have hs := exchanging_run hP hrun
    obtain ⟨-,hcar⟩ := carried_run (carries hpor h hle buflen x)
      (fun e _ => ⟨fun _ _ _ hno => hno.elim,fun hn => by contradiction,fun hn => by contradiction⟩) hs.run
    refine ⟨fun e he => ?_,fun a p i m b hda hds => ?_,fun hqui e he => (hqui.done hP hs he).2⟩
    · have hr := hs.counts e
      refine ⟨hsch e he,hr.failed,hr.dones_le,fun hdn => ?_⟩
      have hstr : (s.rank e).started=true := by
        by_contra hno
        have hid := (hr.idle (Bool.not_eq_true _ ▸ hno)).2.1
        omega
      obtain ⟨hex,hpha⟩ := phase_of_started
        (P := fun e => program (V := Fin buflen → β) ports t e buflen) (T := tables hpor t h hle) s hstr
      have hhol := hcar.party e he
      rw [hex,hpha,hr.done hdn,(program_eq hpor buflen he h hle).1,hs.view_eq e] at hhol
      exact hhol.whole rfl rfl
    · obtain ⟨hsou,hper,w,hw,hlng⟩ := hs.fits hP hda hds
      exact ⟨_,w,hper,(ite_none_right_eq_some.mp hsou).2 |> some.inj,hw,hlng⟩

def twoRanks : Topology := ⟨List.range 2, nodup_range⟩

/-- The buffers of a rank before the start, for blocks of one value. -/
def unset (_ : ℕ) : Working (Fin 1 → ℕ) (ℕ → Fin 1 → ℕ) := ⟨fun _ _ => 0, fun _ _ => 0⟩

/-- The message of rank 0 comes in before rank 1 starts. -/
def exchangeEvents : List (PartnerEvent ℕ) :=
  [.start 0, .transmit 0 0 0, .incoming 0 0 0, .complete 0 0 0, .sent 0 0 0, .start 1, .transmit 1 0 0, .sent 1 0 0,
    .incoming 1 0 0, .complete 1 0 0]

theorem block_runs_two : ∃ s : PartnerSystem ℕ (Fin 1 → ℕ) (ℕ → Fin 1 → ℕ),
    (s.rank 1).dones = 1 ∧ (s.rank 1).data.rbuf 0 = fun _ => 10 := by
  have heve : (execEvents (fun s e => if Starts (· ∈ twoRanks) s e then
      s.step (fun e => program 1 twoRanks e 1) (fun e _ => 10 * (e + 1)) e else none) exchangeEvents
      (new unset)).map (fun s => (s.rank 1).dones) = some 1 := by
    decide
  obtain ⟨s,hs,hdon⟩ := map_eq_some_iff.mp heve
  have hruns := block_runs 1 one_pos (by decide) twoRanks (.inl rfl) 1 (fun e _ => 10 * (e + 1)) _ s
    (Run.refl.checked _ hs)
  exact ⟨s,hdon,(hruns.1 1 (by decide)).2.2.2 hdon 0 (by decide)⟩

def threeRanks : Topology := ⟨List.range 3, nodup_range⟩

/-- The block of rank 2 comes in to rank 0 before the blocks of rank 1. -/
def overwriteEvents : List (PartnerEvent ℕ) :=
  [.start 0, .start 1, .start 2, .transmit 2 0 1, .incoming 2 0 1, .complete 2 0 1, .transmit 1 0 0, .incoming 1 0 0,
    .complete 1 0 0, .transmit 0 0 0, .sent 0 0 0, .transmit 0 0 1, .sent 0 0 1]

/-- With two sources in a phase, the message of the nearer one is as long as those of both, and what follows its block
is written over the block of the other one. -/
theorem two_sources : ¬ ∀ s : PartnerSystem ℕ (Fin 1 → ℕ) (ℕ → Fin 1 → ℕ),
    Run (step (fun e => program 2 threeRanks e 1) fun e _ => e + 1) (Starts (· ∈ threeRanks))
      (.new unset) s → (s.rank 0).dones = 1 →
    ∀ i < threeRanks.size, (s.rank 0).data.rbuf i = fun _ => threeRanks.index2Endpoint i + 1 := by
  intro hall
  have heve : (execEvents (fun s e => if Starts (· ∈ threeRanks) s e then
      s.step (fun e => program 2 threeRanks e 1) (fun e _ => e + 1) e else none) overwriteEvents
      (new unset)).map
      (fun s => ((s.rank 0).dones, (s.rank 0).data.rbuf 2 0)) = some (1, 0) := by
    decide
  obtain ⟨s,hs,hend⟩ := map_eq_some_iff.mp heve
  obtain ⟨hdon,hrbuf⟩ := Prod.mk.inj hend
  have hval := hall s (Run.refl.checked _ hs) hdon 2 (by decide)
  rw [hval] at hrbuf
  exact absurd hrbuf (by decide)

end AllgatherExec

end PAMI.Executor
