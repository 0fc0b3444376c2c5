import PAMI.Math.XorDigits
import PAMI.Schedule.MultinomialTree

namespace PAMI.Schedule

open CollectiveOperation PhaseCode PAMI.Math TopologyMap Nat

/-- The size of a schedule: so many ranks, and the largest power of two in it as a number of
phases and the bits each of them exchanges. -/
structure Dims where
  nranks : ℕ
  phases : ℕ
  logradix : ℕ
  logradix_pos : 0 < logradix
  low : 2^(phases * logradix) ≤ nranks
  high : nranks < 2 * 2^(phases * logradix)

namespace Dims

variable (d : Dims)

def hnranks : ℕ := 2^(d.phases * d.logradix)

def IsPeer (r : ℕ) : Prop := r + d.hnranks < d.nranks

instance (r : ℕ) : Decidable (d.IsPeer r) := inferInstanceAs (Decidable (_ < _))

/-- The partners of a rank in a phase in which everybody exchanges with everybody of a group. -/
def exchange (r p : ℕ) : List ℕ := bino r (p - 1) (2^d.logradix) d.logradix

/-- Who sends to a rank in a phase, relative to the root. -/
def sources (op : CollectiveOperation) (r p : ℕ) : List ℕ :=
  match op with
  | BARRIER_OP | ALLREDUCE_OP =>
    if d.hnranks ≤ r then if p = d.phases + 1 then [r - d.hnranks] else []
    else if 1 ≤ p ∧ p ≤ d.phases then d.exchange r p
    else if p = 0 ∧ d.IsPeer r then [r + d.hnranks] else []
  | REDUCE_OP =>
    if d.hnranks ≤ r then []
    else if 1 ≤ p ∧ p ≤ d.phases then if r % 2^p = 0 then [r + 2^(p - 1)] else []
    else if p = 0 ∧ d.IsPeer r then [r + d.hnranks] else []
  | BROADCAST_OP =>
    if d.hnranks ≤ r then if p = d.phases + 1 then [r - d.hnranks] else []
    else if 1 ≤ p ∧ p ≤ d.phases then if r / 2^(p - 1) = 1 then [r - 2^(p - 1)] else []
    else []

/-- Who a rank sends to in a phase, relative to the root. -/
def targets (op : CollectiveOperation) (r p : ℕ) : List ℕ :=
  match op with
  | BARRIER_OP | ALLREDUCE_OP =>
    if d.hnranks ≤ r then if p = 0 then [r - d.hnranks] else []
    else if 1 ≤ p ∧ p ≤ d.phases then d.exchange r p
    else if p = d.phases + 1 ∧ d.IsPeer r then [r + d.hnranks] else []
  | REDUCE_OP =>
    if d.hnranks ≤ r then if p = 0 then [r - d.hnranks] else []
    else if 1 ≤ p ∧ p ≤ d.phases then if r % 2^p = 2^(p - 1) then [r - 2^(p - 1)] else []
    else []
  | BROADCAST_OP =>
    if d.hnranks ≤ r then []
    else if 1 ≤ p ∧ p ≤ d.phases then if r < 2^(p - 1) then [r + 2^(p - 1)] else []
    else if p = d.phases + 1 ∧ d.IsPeer r then [r + d.hnranks] else []

end Dims

section Bits

theorem ffs_bits {n : ℕ} (hn : n≠0) :
    ∃ j, ffs n = j+1 ∧ n.testBit j = true ∧ ∀ i<j, n.testBit i = false := by
  obtain ⟨l,hl⟩ : ∃ l, l=List.range (n.log2+1) := ⟨_,rfl⟩
  have hlt : l.findIdx (fun i => n.testBit i)<l.length := by
    apply List.findIdx_lt_length_of_exists
    exact ⟨n.log2,by simp [hl],testBit_log2 hn⟩
  refine ⟨l.findIdx (fun i => n.testBit i),by rw [ffs,if_neg hn,hl],?_,?_⟩
  · have h := List.findIdx_getElem (w := hlt)
    simpa [hl] using h
  · intro i hi
    have h := List.not_of_lt_findIdx hi
    simpa [hl] using h

theorem mod_two_pow_eq_zero_iff {n : ℕ} (hn : n≠0) (p : ℕ) : n%2^p=0 ↔ p < ffs n := by
  obtain ⟨j,hj,hset,hcle⟩ := ffs_bits hn
  rw [hj,Nat.lt_succ_iff]
  constructor
  · intro h
    by_contra hlt
    have hbit : (n%2^p).testBit j=true := by
      rw [testBit_mod_two_pow,hset,decide_eq_true (not_le.mp hlt)]
      rfl
    rw [h,zero_testBit] at hbit
    cases hbit
  · intro hle
    apply eq_of_testBit_eq
    intro i
    rw [testBit_mod_two_pow,zero_testBit]
    by_cases hi : i<p
    · rw [hcle i (lt_of_lt_of_le hi hle),Bool.and_false]
    · rw [decide_eq_false hi,Bool.false_and]

theorem mod_two_pow_succ (n p : ℕ) : n%2^(p+1)=n%2^p+2^p*(n/2^p%2) := by
  rw [pow_succ,mod_mul]

theorem mod_two_pow_eq_half_iff (n p : ℕ) :
    n%2^(p+1)=2^p ↔ n%2^p=0 ∧ ¬ n%2^(p+1)=0 := by
  have hpos := Nat.two_pow_pos p
  have hlt := mod_lt n hpos
  rw [mod_two_pow_succ]
  rcases mod_two_eq_zero_or_one (n/2^p) with h | h
  · rw [h]
    omega
  · rw [h]
    omega

theorem xor_of_mod_eq_zero {n p : ℕ} (h : n%2^(p+1)=0) : n ^^^ (1 <<< p) = n+2^p := by
  apply xor_bit_of_even
  rw [mod_two_pow_succ] at h
  exact (Nat.mul_eq_zero.mp (Nat.eq_zero_of_add_eq_zero_left h)).resolve_left
    (Nat.two_pow_pos p).ne'

theorem xor_of_mod_eq_half {n p : ℕ} (h : n%2^(p+1)=2^p) : n ^^^ (1 <<< p) = n-2^p := by
  apply xor_bit_of_odd
  rcases mod_two_eq_zero_or_one (n/2^p) with h0 | h1
  · have hlt := mod_lt n (Nat.two_pow_pos p)
    rw [mod_two_pow_succ,h0,mul_zero,add_zero] at h
    exact absurd h hlt.ne
  · exact h1

theorem ffs_le {n k : ℕ} (hn : n≠0) (hk : n<2^k) : ffs n ≤ k := by
  by_contra hlt
  have hmod := (mod_two_pow_eq_zero_iff hn k).mpr (not_le.mp hlt)
  rw [mod_eq_of_lt hk] at hmod
  exact hn hmod

theorem countPhases_spec (distance fuel d : ℕ) (hd : 0<d) (hfuel : distance≤d+fuel) :
    distance≤d*2^(countPhases 2 distance fuel d) ∧
      ∀ c, countPhases 2 distance fuel d = c+1 → d*2^c<distance := by
  induction fuel generalizing d with
  | zero =>
    refine ⟨by simpa [countPhases] using hfuel,?_⟩
    intro c hc
    cases hc
  | succ fuel ih =>
    rw [countPhases]
    by_cases hlt : d<distance
    · obtain ⟨hrch,hbef⟩ := ih (d*2) (by omega) (by omega)
      rw [if_pos hlt]
      constructor
      · rw [pow_succ,mul_comm _ 2,← mul_assoc]
        exact hrch
      · intro c hc
        cases c with
        | zero => simpa using hlt
        | succ c =>
          have h := hbef c (succ_injective hc)
          rw [pow_succ,mul_comm _ 2,← mul_assoc]
          exact h
    · rw [if_neg hlt]
      refine ⟨by simpa using hlt,?_⟩
      intro c hc
      cases hc

theorem countPhases_rank {r : ℕ} (hr : r≠0) :
    ∃ n, countPhases 2 (r+1) (r+1) 1 = n+1 ∧ 2^n ≤ r ∧ r<2^(n+1) := by
  obtain ⟨hrch,hbef⟩ := countPhases_spec (r+1) (r+1) 1 (by decide) (by omega)
  cases hc : countPhases 2 (r+1) (r+1) 1 with
  | zero =>
    rw [hc] at hrch
    omega
  | succ n =>
    have h := hbef n hc
    rw [hc] at hrch
    refine ⟨n,rfl,?_,?_⟩
    · omega
    · omega

end Bits

section Dimensions

open MultinomialTree

theorem getRadix_cases (maxRadix nranks : ℕ) :
    (getRadix maxRadix nranks = 8 ∧ nranks.log2%3=0) ∨
      (getRadix maxRadix nranks = 4 ∧ nranks.log2%2=0) ∨ getRadix maxRadix nranks = 2 := by
  simp only [getRadix,and_one_is_mod]
  split_ifs with h8 h4
  · exact .inl ⟨rfl,h8.2.2⟩
  · exact .inr (.inl ⟨rfl,h4.2⟩)
  · exact .inr (.inr rfl)

theorem getRadix_eq (maxRadix nranks : ℕ) :
    getRadix maxRadix nranks = 2^getLogRadix (getRadix maxRadix nranks) := by
  rcases getRadix_cases maxRadix nranks with ⟨h,-⟩ | ⟨h,-⟩ | h
  · rw [h]
    rfl
  · rw [h]
    rfl
  · rw [h]
    rfl

theorem getBinoPhases_mul (maxRadix nranks : ℕ) :
    getBinoPhases maxRadix nranks*getLogRadix (getRadix maxRadix nranks) = nranks.log2 := by
  rcases getRadix_cases maxRadix nranks with ⟨h,hmod⟩ | ⟨h,hmod⟩ | h
  · simp only [getBinoPhases,h,getLogRadix]
    exact Nat.div_mul_cancel (dvd_of_mod_eq_zero hmod)
  · simp only [getBinoPhases,h,getLogRadix]
    exact Nat.div_mul_cancel (dvd_of_mod_eq_zero hmod)
  · simp only [getBinoPhases,h,getLogRadix]
    simp

theorem getLogRadix_pos (radix : ℕ) : 0 < getLogRadix radix := by
  unfold getLogRadix
  split_ifs
  · decide
  · decide
  · decide

/-- The dimensions of the schedule for so many ranks. -/
def dims (maxRadix : ℕ) {nranks : ℕ} (h : 0 < nranks) : Dims where
  nranks := nranks
  phases := getBinoPhases maxRadix nranks
  logradix := getLogRadix (getRadix maxRadix nranks)
  logradix_pos := getLogRadix_pos _
  low := by
    rw [getBinoPhases_mul]
    exact log2_self_le h.ne'
  high := by
    rw [getBinoPhases_mul, mul_comm, ← pow_succ]
    exact lt_log2_self

theorem dims_hnranks {nranks : ℕ} (h : 0<nranks) (maxRadix : ℕ) :
    (dims maxRadix h).hnranks=2^nranks.log2 :=
  congrArg (2 ^ ·) (getBinoPhases_mul maxRadix nranks)

theorem dims_logradix {nranks : ℕ} (h : 0<nranks) {maxRadix : ℕ}
    (hr : getRadix maxRadix nranks = 2) : (dims maxRadix h).logradix=1 := by
  show getLogRadix (getRadix maxRadix nranks)=1
  rw [hr]
  rfl

/-- A tree with the parameters of the dimensions, its context set up for the operation. -/
structure Fits (t : MultinomialTree) (d : Dims) (op : CollectiveOperation) : Prop where
  radix : t.radix = 2^d.logradix
  logradix : t.logradix = d.logradix
  nphbino : t.nphbino = d.phases
  hnranks : t.map.hnranks = d.hnranks
  size : t.map.topology.size = d.nranks
  rank : t.map.getMyRank < d.nranks
  maxphases : d.hnranks < d.nranks → t.maxphases = d.phases + 2
  context : t.context = setupContext op t.map t.radix t.nphbino t.maxphases

/-- The index the ranks of an operation are counted from. -/
def rootIndex (topology : Topology) (root : ℕ) (op : CollectiveOperation) : ℕ :=
  if op = REDUCE_OP ∨ op = BROADCAST_OP then topology.endpoint2Index root else 0

variable {maxRadix root e : ℕ} {topology : Topology} {op : CollectiveOperation}

theorem init_map : (init maxRadix topology root op e).map = rooted topology (rootIndex topology root op) e := by
  simp only [init,rootIndex]
  split_ifs
  · rfl
  · rfl

theorem rootIndex_lt (hrt : root ∈ topology) : rootIndex topology root op < topology.size := by
  have hlt := Topology.endpoint2Index_lt hrt
  rw [rootIndex]
  split_ifs
  · exact hlt
  · exact lt_of_le_of_lt (zero_le _) hlt

theorem init_fits (hpos : 0<topology.size) (hrt : root ∈ topology) (he : e ∈ topology) :
    Fits (init maxRadix topology root op e) (dims maxRadix hpos) op := by
  refine ⟨getRadix_eq _ _,rfl,rfl,?_,?_,?_,?_,rfl⟩
  · rw [init_map,dims_hnranks]
    exact one_shiftLeft _
  · rw [init_map]
    rfl
  · rw [init_map]
    exact getMyRank_lt (rootIndex_lt hrt) he
  · intro hlt
    have haux : (new e topology).hasAuxPhases=true := by
      by_contra hno
      have hand : topology.size &&& (topology.size-1)=0 := by
        by_contra hne
        exact hno (decide_eq_true hne)
      obtain ⟨j,hj⟩ := (and_sub_one_eq_zero_iff_isPowerOfTwo hpos.ne').mp hand
      have hsi : 2^topology.size.log2<topology.size := by
        rw [← dims_hnranks hpos maxRadix]
        exact hlt
      rw [hj,log2_two_pow] at hsi
      exact lt_irrefl _ hsi
    show getMaxPhases maxRadix topology.size+(new e topology).hasAuxPhases.toNat = _
    rw [haux]
    rfl

theorem init_maxphases (hpos : 0<topology.size)
    (hpow : (dims maxRadix hpos).nranks=(dims maxRadix hpos).hnranks) :
    (init maxRadix topology root op e).maxphases=(dims maxRadix hpos).phases+1 := by
  have haux : (new e topology).hasAuxPhases=false := by
    apply decide_eq_false
    rw [not_not]
    apply (and_sub_one_eq_zero_iff_isPowerOfTwo hpos.ne').mpr
    exact ⟨topology.size.log2,hpow.trans (dims_hnranks hpos maxRadix)⟩
  show getMaxPhases maxRadix topology.size+(new e topology).hasAuxPhases.toNat = _
  rw [haux]
  rfl

end Dimensions

end PAMI.Schedule

namespace PAMI.Schedule

open CollectiveOperation PhaseCode PAMI.Math MultinomialTree TopologyMap

section Contexts

variable {t : MultinomialTree} {d : Dims} {op : CollectiveOperation}

theorem Dims.hnranks_le (d : Dims) : d.hnranks≤d.nranks := d.low

theorem Dims.lt_two_hnranks (d : Dims) : d.nranks<2*d.hnranks := d.high

theorem Fits.isAuxProc (h : Fits t d op) :
    t.map.isAuxProc = decide (d.hnranks≤t.map.getMyRank) := by
  rw [TopologyMap.isAuxProc,h.hnranks]

theorem Fits.isPeerProc (h : Fits t d op) :
    t.map.isPeerProc = decide (d.IsPeer t.map.getMyRank) := by
  rw [TopologyMap.isPeerProc,h.hnranks,h.size]
  apply decide_eq_decide.mpr
  have hlow := d.hnranks_le
  rw [Dims.IsPeer]
  omega

theorem Fits.context_of_aux (h : Fits t d op) (haux : d.hnranks≤t.map.getMyRank) :
    t.map.isAuxProc=true ∧ t.context = setupAux op (d.phases+2) (setupPeer op false d.phases (d.phases+2)) := by
  have hrk := h.rank
  have hhg := d.lt_two_hnranks
  have hpe : ¬ d.IsPeer t.map.getMyRank := by
    rw [Dims.IsPeer]
    omega
  have h1 : t.map.isAuxProc=true := by rw [h.isAuxProc,decide_eq_true haux]
  refine ⟨h1,?_⟩
  rw [h.context,setupContext,h.isPeerProc,decide_eq_false hpe,h.nphbino,h.maxphases (lt_of_le_of_lt haux h.rank)]
  simp only [h1,if_true]

theorem Fits.context_of_peer (h : Fits t d op) (hpe : d.IsPeer t.map.getMyRank) :
    t.map.isAuxProc=false ∧ t.map.isPeerProc=true ∧ t.context = setupBino op t.map.getMyRank t.radix
        (setupPeer op true d.phases (d.phases+2)) := by
  have hhg := d.lt_two_hnranks
  have hlt := hpe
  rw [Dims.IsPeer] at hlt
  have h1 : t.map.isAuxProc=false := by
    rw [h.isAuxProc]
    exact decide_eq_false (by omega)
  have h2 : t.map.isPeerProc=true := by rw [h.isPeerProc,decide_eq_true hpe]
  refine ⟨h1,h2,?_⟩
  rw [h.context,setupContext,h2,h.nphbino,h.maxphases (by omega)]
  simp only [h1,Bool.false_eq_true,if_false]

theorem Fits.context_of_inner (h : Fits t d op) (haux : ¬ d.hnranks≤t.map.getMyRank)
    (hpe : ¬ d.IsPeer t.map.getMyRank) :
    t.map.isAuxProc=false ∧ t.map.isPeerProc=false ∧ t.context = setupBino op t.map.getMyRank t.radix
        (setupPeer op false d.phases t.maxphases) := by
  have h1 : t.map.isAuxProc=false := by rw [h.isAuxProc,decide_eq_false haux]
  have h2 : t.map.isPeerProc=false := by rw [h.isPeerProc,decide_eq_false hpe]
  refine ⟨h1,h2,?_⟩
  rw [h.context,setupContext,h2,h.nphbino]
  simp only [h1,Bool.false_eq_true,if_false]

end Contexts

section Windows

variable {t : MultinomialTree} {d : Dims} {op : CollectiveOperation}

theorem setupBino_aux (op : CollectiveOperation) (rank radix : ℕ) (c : Context) :
    (setupBino op rank radix c).auxsendph=c.auxsendph ∧ (setupBino op rank radix c).auxrecvph=c.auxrecvph := by
  cases op with
  | BARRIER_OP | ALLREDUCE_OP => exact ⟨rfl,rfl⟩
  | REDUCE_OP | BROADCAST_OP =>
    rw [setupBino]
    split_ifs
    · exact ⟨rfl,rfl⟩
    · exact ⟨rfl,rfl⟩

theorem Fits.auxph_cases (h : Fits t d op) (parent : Bool) :
    t.auxph parent = NO_PHASES ∨ t.auxph parent = phase 0 ∨ t.auxph parent = phase (d.phases+1) := by
  rw [auxph]
  by_cases haux : d.hnranks≤t.map.getMyRank
  · rw [(h.context_of_aux haux).2]
    cases op <;> cases parent <;> simp [setupAux,setupPeer]
  · by_cases hpe : d.IsPeer t.map.getMyRank
    · obtain ⟨-,-,hctx⟩ := h.context_of_peer hpe
      rw [hctx,(setupBino_aux ..).1,(setupBino_aux ..).2]
      cases op <;> cases parent <;> simp [setupPeer]
    · obtain ⟨-,-,hctx⟩ := h.context_of_inner haux hpe
      rw [hctx,(setupBino_aux ..).1,(setupBino_aux ..).2]
      cases parent <;> simp [setupPeer]

theorem Fits.partnerRanks_eq (h : Fits t d op) (parent : Bool) (p : ℕ) :
    t.partnerRanks parent p =
      if t.Communicates parent p then bino t.map.getMyRank (p-1) (2^d.logradix) d.logradix
      else if t.auxph parent = phase p then
        if d.hnranks≤t.map.getMyRank then [t.map.getMyRank-d.hnranks]
        else if d.IsPeer t.map.getMyRank then [t.map.getMyRank+d.hnranks] else []
      else [] := by
  by_cases hc : t.Communicates parent p
  · have hout (b : Bool) : t.auxph b ≠ phase p := by
      intro hp
      obtain ⟨hlow,hhg,-⟩ := hc
      rw [h.nphbino] at hhg
      rcases h.auxph_cases b with h1 | h1 | h1
      · rw [h1] at hp
        cases hp
      · rw [h1] at hp
        cases hp
        omega
      · rw [h1] at hp
        cases hp
        omega
    rw [partnerRanks_bino hc (hout _) (hout _),if_pos hc,h.radix,h.logradix]
  · rw [if_neg hc]
    by_cases ha : t.auxph parent = phase p
    · rw [partnerRanks_aux ha,if_pos ha,h.isAuxProc,h.isPeerProc]
      simp only [decide_eq_true_eq,getPeerForAux,getAuxForPeer,h.hnranks]
    · rw [partnerRanks_nil hc ha,if_neg ha]

/-- What a rank does in a phase: whether the phase is in the range it executes, and whether it
receives or sends in it, in the power of two part or with its auxiliary rank or peer. -/
structure View (t : MultinomialTree) (p : ℕ) (active recv send auxrecv auxsend : Prop) : Prop where
  active : t.Active p ↔ active
  recv : t.Communicates true p ↔ recv
  send : t.Communicates false p ↔ send
  auxrecv : t.auxph true = phase p ↔ auxrecv
  auxsend : t.auxph false = phase p ↔ auxsend

theorem Fits.exchange_aux (h : Fits t d op) (hop : op=BARRIER_OP ∨ op=ALLREDUCE_OP)
    (haux : d.hnranks≤t.map.getMyRank) (p : ℕ) :
    View t p (p<d.phases+2) False False (p=d.phases+1) (p=0) := by
  obtain ⟨-,hctx⟩ := h.context_of_aux haux
  constructor <;> rcases hop with rfl | rfl <;>
    simp [Active,Communicates,mainph,auxph,hctx,setupAux,setupPeer,eq_comm]

theorem Fits.exchange_main (h : Fits t d op) (hop : op=BARRIER_OP ∨ op=ALLREDUCE_OP)
    (haux : ¬ d.hnranks≤t.map.getMyRank) (p : ℕ) :
    View t p ((1≤p ∧ p≤d.phases) ∨ ((p=0 ∨ p=d.phases+1) ∧ d.IsPeer t.map.getMyRank))
      (1≤p ∧ p≤d.phases) (1≤p ∧ p≤d.phases) (p=0 ∧ d.IsPeer t.map.getMyRank)
      (p=d.phases+1 ∧ d.IsPeer t.map.getMyRank) := by
  by_cases hpe : d.IsPeer t.map.getMyRank
  · obtain ⟨-,-,hctx⟩ := h.context_of_peer hpe
    constructor <;> rcases hop with rfl | rfl <;>
      simp [Active,Communicates,mainph,auxph,hctx,setupBino,setupPeer,hpe,h.nphbino,eq_comm]
    all_goals omega
  · obtain ⟨-,-,hctx⟩ := h.context_of_inner haux hpe
    constructor <;> rcases hop with rfl | rfl <;>
      simp [Active,Communicates,mainph,auxph,hctx,setupBino,setupPeer,hpe,h.nphbino]
    all_goals omega

theorem Fits.reduce_aux (h : Fits t d REDUCE_OP) (haux : d.hnranks≤t.map.getMyRank) (p : ℕ) :
    View t p (p=0) False False False (p=0) := by
  obtain ⟨-,hctx⟩ := h.context_of_aux haux
  constructor <;>
    simp [Active,Communicates,mainph,auxph,hctx,setupAux,setupPeer,eq_comm]

theorem Fits.reduce_root (h : Fits t d REDUCE_OP) (haux : ¬ d.hnranks≤t.map.getMyRank)
    (hr : t.map.getMyRank=0) (p : ℕ) :
    View t p ((1≤p ∧ p≤d.phases) ∨ (p=0 ∧ d.IsPeer t.map.getMyRank))
      (1≤p ∧ p≤d.phases) False (p=0 ∧ d.IsPeer t.map.getMyRank) False := by
  by_cases hpe : d.IsPeer t.map.getMyRank
  · obtain ⟨-,-,hctx⟩ := h.context_of_peer hpe
    rw [setupBino,if_pos hr] at hctx
    constructor <;>
      simp [Active,Communicates,mainph,auxph,hctx,setupPeer,hpe,h.nphbino,eq_comm]
    omega
  · obtain ⟨-,-,hctx⟩ := h.context_of_inner haux hpe
    rw [setupBino,if_pos hr] at hctx
    constructor <;>
      simp [Active,Communicates,mainph,auxph,hctx,setupPeer,hpe,h.nphbino]
    omega

theorem Fits.reduce_main (h : Fits t d REDUCE_OP) (haux : ¬ d.hnranks≤t.map.getMyRank)
    (hr : t.map.getMyRank≠0) (hlow : 1 ≤ ffs t.map.getMyRank)
    (hhg : ffs t.map.getMyRank ≤ d.phases) (p : ℕ) :
    View t p ((1≤p ∧ p ≤ ffs t.map.getMyRank) ∨ (p=0 ∧ d.IsPeer t.map.getMyRank))
      (1≤p ∧ p≤d.phases ∧ p ≠ ffs t.map.getMyRank) (p = ffs t.map.getMyRank)
      (p=0 ∧ d.IsPeer t.map.getMyRank) False := by
  by_cases hpe : d.IsPeer t.map.getMyRank
  · obtain ⟨-,-,hctx⟩ := h.context_of_peer hpe
    constructor <;>
      simp [Active,Communicates,mainph,auxph,hctx,setupBino,setupPeer,hr,hpe,h.nphbino]
    all_goals omega
  · obtain ⟨-,-,hctx⟩ := h.context_of_inner haux hpe
    constructor <;>
      simp [Active,Communicates,mainph,auxph,hctx,setupBino,setupPeer,hr,hpe,h.nphbino]
    all_goals omega

theorem Fits.broadcast_aux (h : Fits t d BROADCAST_OP) (haux : d.hnranks≤t.map.getMyRank)
    (p : ℕ) : View t p (p=d.phases+1) False False (p=d.phases+1) False := by
  obtain ⟨-,hctx⟩ := h.context_of_aux haux
  constructor <;>
    simp [Active,Communicates,mainph,auxph,hctx,setupAux,setupPeer,eq_comm]
  omega

theorem Fits.broadcast_root (h : Fits t d BROADCAST_OP) (haux : ¬ d.hnranks≤t.map.getMyRank)
    (hr : t.map.getMyRank=0) (p : ℕ) :
    View t p ((1≤p ∧ p≤d.phases) ∨ (p=d.phases+1 ∧ d.IsPeer t.map.getMyRank)) False
      (1≤p ∧ p≤d.phases) False (p=d.phases+1 ∧ d.IsPeer t.map.getMyRank) := by
  by_cases hpe : d.IsPeer t.map.getMyRank
  · obtain ⟨-,-,hctx⟩ := h.context_of_peer hpe
    rw [setupBino,if_pos hr] at hctx
    constructor <;>
      simp [Active,Communicates,mainph,auxph,hctx,setupPeer,hpe,h.nphbino,eq_comm]
    omega
  · obtain ⟨-,-,hctx⟩ := h.context_of_inner haux hpe
    rw [setupBino,if_pos hr] at hctx
    constructor <;>
      simp [Active,Communicates,mainph,auxph,hctx,setupPeer,hpe,h.nphbino]
    omega

theorem Fits.broadcast_main (h : Fits t d BROADCAST_OP) (haux : ¬ d.hnranks≤t.map.getMyRank)
    (hr : t.map.getMyRank≠0) {n : ℕ}
    (hn : countPhases t.radix (t.map.getMyRank+1) (t.map.getMyRank+1) 1 = n+1)
    (hhg : n+1≤d.phases) (p : ℕ) :
    View t p ((n+1≤p ∧ p≤d.phases) ∨ (p=d.phases+1 ∧ d.IsPeer t.map.getMyRank))
      (p=n+1) (1≤p ∧ p≤d.phases ∧ p≠n+1) False
      (p=d.phases+1 ∧ d.IsPeer t.map.getMyRank) := by
  by_cases hpe : d.IsPeer t.map.getMyRank
  · obtain ⟨-,-,hctx⟩ := h.context_of_peer hpe
    rw [setupBino,if_neg hr,hn] at hctx
    constructor <;>
      simp [Active,Communicates,mainph,auxph,hctx,setupPeer,hpe,h.nphbino]
    all_goals omega
  · obtain ⟨-,-,hctx⟩ := h.context_of_inner haux hpe
    rw [setupBino,if_neg hr,hn] at hctx
    constructor <;>
      simp [Active,Communicates,mainph,auxph,hctx,setupPeer,hpe,h.nphbino]
    all_goals omega

end Windows

end PAMI.Schedule
