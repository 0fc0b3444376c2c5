import Mathlib.Algebra.BigOperators.Ring.Finset
import PAMI.Executor.GatherTrees

namespace PAMI.Executor

open PAMI.Math PAMI.Schedule GenericTreeSchedule GatherExec Option Nat Finset

namespace GatherTree

variable {V : Type*} (t : Topology) (root : ℕ) (c : ℕ → GatherCall V) (vec : Option GatherVectors)

def blockLen (e : ℕ) : ℕ := (c e).count * (c e).ssize

def block (e : ℕ) : List V := readBytes (c e).sbuf 0 (blockLen c e)

/-- The blocks of other ranks in the receive buffer do not overlap the one of a rank. -/
def Apart (d : ℕ) : Prop := ∀ v ∈ vec, ∀ e ∈ t, e ≠ d → v.rcvcounts (t.endpoint2Index e) = 0 ∨
    v.disps (t.endpoint2Index e) + v.rcvcounts (t.endpoint2Index e) ≤ v.disps (t.endpoint2Index d) ∨
    v.disps (t.endpoint2Index d) + v.rcvcounts (t.endpoint2Index d) ≤ v.disps (t.endpoint2Index e)

def target (d : ℕ) : ℕ :=
  match vec with
  | some v => v.disps (t.endpoint2Index d) * (c root).rsize
  | none => t.endpoint2Index d * blockLen c root

/-- Where a rank puts the block of another one. -/
def slot (e d : ℕ) : ℕ :=
  match vectors root e vec with
  | some v => v.disps (t.endpoint2Index d) * (c e).rsize
  | none => (place t root d - place t root e) * blockLen c root

def memory (x : GatherExec V) (e : ℕ) : ℕ → V := if (vectors root e vec).isSome then x.rbuf else x.tmpbuf

def Holds (x : GatherExec V) (e d : ℕ) : Prop :=
  readBytes (memory root vec x e) (slot t root c vec e d) (blockLen c d) = block c d

/-- `_bufcnt`, after `setBuffers`. -/
def expected (e : ℕ) : ℕ :=
  match vectors root e vec with
  | some v => ((List.range t.size).map v.rcvcounts).sum
  | none => (c e).count

variable {t root} {S : ℕ → GatherSchedule} (A : GatherTree t root S)

/-- The ranks that a rank collects from, in the order of their places. -/
def ranks (e : ℕ) : List ℕ := (List.range (A.size e)).map fun j => endpointAt t root (place t root e + j)

def collected (e : ℕ) : List V := (A.ranks e).flatMap (block c)

/-- The calls of the ranks fit together. -/
structure Fitting : Prop where
  zero : ∀ e ∈ t, blockLen c e = 0 ↔ (c e).count = 0
  equal : vec = none → ∀ e ∈ t, blockLen c e = blockLen c root ∧ (c e).count * (c e).rsize = blockLen c root
  vector : ∀ v ∈ vec, ∀ e ∈ t, v.rcvcounts (t.endpoint2Index e) * (c root).rsize = blockLen c e ∧
    (v.rcvcounts (t.endpoint2Index e) = 0 ↔ blockLen c e = 0)
  leaf : vec.isSome = true → ∀ e ∈ t, e ≠ root → A.degree e = 0
  short : ∀ e ∈ t, ∀ q < A.degree e, slot t root c vec e (A.child e q) < 2 ^ 32

/-- What a rank waits for: its own start, and the messages of its children that have something to send. -/
def pending (x : GatherExec V) (m : ℕ → GatherMessage V) (e : ℕ) : ℕ :=
  (if x.started = true then 0 else 1) + ∑ q ∈ Finset.range (A.degree e),
    if (c (A.child e q)).count ≠ 0 ∧ (m (A.child e q)).complete = false then A.size (A.child e q) else 0

/-- What a rank has stored. -/
structure Stored (e : ℕ) (x : GatherExec V) (m : ℕ → GatherMessage V) : Prop where
  failed : x.failed = false
  bufcnt : x.bufcnt = expected t root c vec e
  link : ∀ b ∈ t, ∀ q < A.degree b, A.child b q = e → x.dst = some b ∧ x.totallen = A.size e
  own : x.started = true → expected t root c vec e ≠ 0 → e ≠ root → 0 < A.degree e → Holds t root c vec x e e
  ownRoot : x.started = true → expected t root c vec e ≠ 0 → e = root → Apart t vec e →
    readBytes x.rbuf (target t root c vec e) (blockLen c e) = block c e
  record : ∀ q < A.degree e, (m (A.child e q)).incoming = true →
    x.mrecvstr (recvIndex (S e) (A.child e q) (S (A.child e q)).startphase) =
      ⟨slot t root c vec e (A.child e q), (A.collected c (A.child e q)).length, A.size (A.child e q)⟩
  held : ∀ q < A.degree e, (m (A.child e q)).arrived = true → ∀ d ∈ A.ranks (A.child e q), Apart t vec d →
    Holds t root c vec x e d

/-- What holds of a rank. -/
structure RankOk (e : ℕ) (x : GatherExec V) (m : ℕ → GatherMessage V) : Prop extends A.Stored c vec e x m where
  donecount : expected t root c vec e ≠ 0 → x.donecount = A.pending c x m e
  posted : x.posted = true ↔ e ≠ root ∧ expected t root c vec e ≠ 0 ∧ A.pending c x m e = 0
  dones : x.dones =
    if expected t root c vec e = 0 then if x.started = true then 1 else 0
    else if e = root then if A.pending c x m e = 0 then 1 else 0
    else if (m e).sent = true then 1 else 0
  final : e = root → vec = none → expected t root c vec e ≠ 0 → A.pending c x m e = 0 →
    ∀ d ∈ t, readBytes x.rbuf (target t root c vec d) (blockLen c d) = block c d

/-- What holds of the message of a rank. -/
structure MessageOk (a : ℕ) (x : GatherExec V) (m : GatherMessage V) : Prop where
  sent : m.sent = true → m.data.isSome = true
  incoming : m.incoming = true → m.data.isSome = true
  arrived : m.arrived = true → m.incoming = true
  complete : m.complete = true → m.arrived = true
  data : ∀ v, m.data = some v → x.posted = true ∧ v = A.collected c a

section Ranks

variable {e q d : ℕ} (hrt : root ∈ t) (he : e ∈ t)

include hrt he

theorem mem_ranks : d ∈ A.ranks e ↔ d ∈ t ∧ place t root e ≤ place t root d ∧
    place t root d < place t root e+A.size e := by
  have hbou := A.bound e he
  rw [ranks,List.mem_map]
  constructor
  · rintro ⟨j,hj,rfl⟩
    have hj := List.mem_range.mp hj
    rw [place_endpointAt hrt (by omega)]
    exact ⟨endpointAt_mem hrt (by omega),by omega,by omega⟩
  · rintro ⟨hd,hlow,hhg⟩
    refine ⟨place t root d-place t root e,List.mem_range.mpr (by omega),?_⟩
    rw [Nat.add_sub_cancel' hlow,endpointAt_place hrt hd]

theorem ranks_getElem? (hd : d ∈ A.ranks e) : (A.ranks e)[place t root d-place t root e]? = some d := by
  obtain ⟨hmem,hlow,hhg⟩ := (A.mem_ranks hrt he).mp hd
  rw [ranks,List.getElem?_map,List.getElem?_range (by omega),map_some,Nat.add_sub_cancel' hlow,
    endpointAt_place hrt hmem]

theorem child_ne_root (hq : q < A.degree e) : A.child e q ≠ root := by
  have hpla := (A.child_place e he q hq).1
  rw [Ne,eq_root_iff hrt (A.child_mem e he q hq)]
  omega

omit hrt in
theorem size_pos : 0 < A.size e := by
  rw [← A.sum_size e he]
  exact succ_pos _

omit hrt in
theorem size_leaf (hleaf : A.degree e = 0) : A.size e = 1 := by
  rw [← A.sum_size e he,hleaf,range_zero,sum_empty]

end Ranks

section Records

variable {e q p : ℕ} (he : e ∈ t)

include he

theorem sourceIndex_child (hq : q < A.degree e) :
    sourceIndex (S e) (A.child e q) (S (A.child e q)).startphase = 0 := by
  rw [sourceIndex,A.getRList e he q hq]
  simp

theorem recvIndex_child (hq : q < A.degree e) :
    recvIndex (S e) (A.child e q) (S (A.child e q)).startphase = (A.degree e-1-q)*(S e).maxsrcs := by
  have hphs := A.nphases e he (by omega)
  have hpha : (S e).nphases-(A.first e+q)-1=A.degree e-1-q := by omega
  rw [recvIndex,A.sourceIndex_child he hq,A.startphase e he q hq,hpha,add_zero]

theorem recvIndex_lt (hq : q < A.degree e) :
    recvIndex (S e) (A.child e q) (S (A.child e q)).startphase < (S e).maxsrcs*(S e).mynphases := by
  rw [A.recvIndex_child he hq,A.mynphases e he,mul_comm]
  exact Nat.mul_lt_mul_of_pos_left (by omega) (A.maxsrcs e he)

theorem recvIndex_inj (hq : q < A.degree e) (hp : p < A.degree e)
    (heq : recvIndex (S e) (A.child e q) (S (A.child e q)).startphase =
      recvIndex (S e) (A.child e p) (S (A.child e p)).startphase) : q=p := by
  rw [A.recvIndex_child he hq,A.recvIndex_child he hp] at heq
  have := eq_of_mul_eq_mul_right (A.maxsrcs e he) heq
  omega

end Records

section Pending

variable {c} {e q : ℕ} {x y : GatherExec V} {m m' : ℕ → GatherMessage V}

theorem pending_eq_zero (he : e ∈ t) : A.pending c x m e = 0 ↔ x.started=true ∧
    ∀ q < A.degree e, (c (A.child e q)).count≠0 → (m (A.child e q)).complete=true := by
  rw [pending,Nat.add_eq_zero_iff,sum_eq_zero_iff]
  refine and_congr (by split <;> simp_all) (forall_congr' fun q => ?_)
  rw [mem_range]
  refine forall_congr' fun hq => ?_
  have hpos := A.size_pos (A.child_mem e he q hq)
  split
  case isTrue h =>
    refine iff_of_false hpos.ne' fun hall => ?_
    rw [hall h.1] at h
    exact Bool.false_ne_true h.2.symm
  case isFalse h =>
    refine iff_of_true rfl fun hcou => ?_
    by_contra hno
    exact h ⟨hcou,Bool.not_eq_true _ ▸ hno⟩

theorem pending_congr (hx : y.started=x.started)
    (hm : ∀ q < A.degree e, (m' (A.child e q)).complete=(m (A.child e q)).complete) :
    A.pending c y m' e = A.pending c x m e := by
  rw [pending,pending,hx]
  refine congrArg _ (sum_congr rfl fun q hq => ?_)
  rw [hm q (mem_range.mp hq)]

theorem pending_start (hfre : x.started=false) (hy : y.started=true) :
    A.pending c y m e+1 = A.pending c x m e := by
  rw [pending,pending,hfre,hy,if_pos rfl,if_neg Bool.false_ne_true]
  omega

theorem pending_complete (hq : q < A.degree e) (hcou : (c (A.child e q)).count≠0)
    (hbef : (m (A.child e q)).complete=false) (haft : (m' (A.child e q)).complete=true)
    (hm : ∀ p < A.degree e, p≠q → (m' (A.child e p)).complete=(m (A.child e p)).complete)
    (hx : y.started=x.started) :
    A.pending c y m' e+A.size (A.child e q) = A.pending c x m e := by
  have hmem := mem_range.mpr hq
  rw [pending,pending,hx,← add_sum_erase _ _ hmem,← add_sum_erase (Finset.range (A.degree e)) _ hmem]
  have hwas : (if (c (A.child e q)).count≠0 ∧ (m (A.child e q)).complete=false then A.size (A.child e q) else 0) =
      A.size (A.child e q) := if_pos ⟨hcou,hbef⟩
  have hnow : (if (c (A.child e q)).count≠0 ∧ (m' (A.child e q)).complete=false then A.size (A.child e q) else 0) =
      0 := if_neg fun h => Bool.false_ne_true (h.2.symm.trans haft)
  have hrs : (∑ p ∈ (Finset.range (A.degree e)).erase q,
      if (c (A.child e p)).count≠0 ∧ (m' (A.child e p)).complete=false then A.size (A.child e p) else 0) =
        ∑ p ∈ (Finset.range (A.degree e)).erase q,
          if (c (A.child e p)).count≠0 ∧ (m (A.child e p)).complete=false then A.size (A.child e p) else 0 := by
    refine sum_congr rfl fun p hp => ?_
    have hp := mem_erase.mp hp
    rw [hm p (mem_range.mp hp.2) hp.1]
  rw [hwas,hnow,hrs]
  omega

end Pending

section Memory

variable {c} {e d : ℕ} {x : GatherExec V}

theorem vectors_root : vectors root root vec = vec := if_pos rfl

theorem vectors_of_ne (hne : e≠root) : vectors root e vec = none := if_neg hne

theorem holds_root {v : GatherVectors} : Holds t root c (some v) x root d ↔
    readBytes x.rbuf (target t root c (some v) d) (blockLen c d) = block c d := by
  rw [Holds,memory,slot,vectors_root]
  rfl

theorem place_index (hrt : root ∈ t) (hd : d ∈ t) : t.endpoint2Index root < t.size ∧ t.endpoint2Index d < t.size ∧
    (t.endpoint2Index root ≤ t.endpoint2Index d ∧ t.endpoint2Index d = t.endpoint2Index root+place t root d ∨
      t.endpoint2Index d < t.endpoint2Index root ∧
        place t root d = t.size-t.endpoint2Index root+t.endpoint2Index d) := by
  have hr := Topology.endpoint2Index_lt hrt
  have hi := Topology.endpoint2Index_lt hd
  refine ⟨hr,hi,?_⟩
  rw [GenericTreeSchedule.place,TopologyMap.getMyRank_rooted]
  split <;> omega

theorem place_sub {e : ℕ} (hrt : root ∈ t) (he : e ∈ t) (hd : d ∈ t) (hlt : place t root e < place t root d) :
    (t.endpoint2Index d+t.size-t.endpoint2Index e)%t.size = place t root d-place t root e := by
  have hpla := place_index hrt he
  have hpla' := place_index hrt hd
  by_cases hle : t.endpoint2Index e ≤ t.endpoint2Index d
  · have hsum : t.endpoint2Index d+t.size-t.endpoint2Index e = t.endpoint2Index d-t.endpoint2Index e+t.size := by
      omega
    rw [hsum,add_mod_right,mod_eq_of_lt (by omega)]
    omega
  · rw [mod_eq_of_lt (by omega)]
    omega

theorem rotate_spec {len : ℕ} (hrt : root ∈ t) (hlen : x.bufcnt*(c root).rsize=len)
    (hown : readBytes x.rbuf (t.endpoint2Index root*len) len = block c root)
    (htmp : ∀ d ∈ t, d≠root → readBytes x.tmpbuf (place t root d*len) len = block c d) (hd : d ∈ t) :
    readBytes (rotate t root root (c root) x) (t.endpoint2Index d*len) len = block c d := by
  obtain ⟨hr,hi,hpla⟩ := place_index hrt hd
  have hzr := eq_root_iff hrt hd
  rw [rotate]
  simp only [hlen]
  split
  case isTrue hne =>
    obtain ⟨hle,hinx⟩ | ⟨hlt,hinx⟩ := hpla
    · rw [readBytes_copy_of_ne (a := 0) (zero_mul _).symm rfl (.inr (.inl (by omega)))]
      by_cases heq : d=root
      · subst heq
        rw [readBytes_copy_of_ne rfl rfl,hown]
        obtain hla | hbeh := eq_or_lt_of_le (succ_le_of_lt hr)
        · right; right
          omega
        · left
          rw [mod_eq_of_lt hbeh]
          exact lt_succ_self _
      · obtain ⟨k,hk⟩ := exists_eq_succ_of_ne_zero (mt hzr.mpr heq)
        have hmod : (t.endpoint2Index root+1)%t.size=t.endpoint2Index root+1 := mod_eq_of_lt (by omega)
        rw [readBytes_copy (b := 1) (k := k) rfl (one_mul _).symm (by omega),← htmp d hd heq,hk,add_comm 1]
        rw [hmod,hinx,hk,add_assoc,add_comm 1]
    · have hne : d≠root := by
        rintro rfl
        exact lt_irrefl _ hlt
      rw [readBytes_copy (a := 0) (k := t.endpoint2Index d) (zero_mul _).symm rfl hlt (by rw [zero_add]),
        ← htmp d hd hne,hinx]
  case isFalse hfir =>
    have hfir := not_not.mp hfir
    by_cases heq : d=root
    · subst heq
      rw [readBytes_copy_of_ne (a := 1) (one_mul _).symm rfl (.inl (by omega)),hown]
    · obtain ⟨k,hk⟩ := exists_eq_succ_of_ne_zero (mt hzr.mpr heq)
      rw [readBytes_copy (a := 1) (b := 1) (k := k) (one_mul _).symm (one_mul _).symm (by omega),
        ← htmp d hd heq,hk,add_comm 1]
      rw [add_comm 1]
      congr 1
      omega

end Memory

section Fitting

variable {A c vec} {e q d : ℕ}

theorem expected_of_ne (hne : e≠root) : expected t root c vec e = (c e).count := by
  rw [expected,vectors_of_ne vec hne]

theorem expected_of_none (hvec : vec=none) : expected t root c vec e = (c e).count := by
  subst hvec
  rw [expected,vectors,ite_self]

theorem Fitting.cases (h : A.Fitting c vec) (he : e ∈ t) (hq : q < A.degree e) :
    vec=none ∨ ∃ v, vec = some v ∧ e=root := by
  cases hvec : vec with
  | none => exact .inl rfl
  | some v =>
    refine .inr ⟨v,rfl,?_⟩
    by_contra hne
    rw [h.leaf (by rw [hvec]; rfl) e he hne] at hq
    exact Nat.not_lt_zero q hq

theorem Fitting.count_iff (h : A.Fitting c vec) (hvec : vec=none) (he : e ∈ t) (hrt : root ∈ t) :
    (c e).count=0 ↔ (c root).count=0 := by
  rw [← h.zero e he,← h.zero root hrt,(h.equal hvec e he).1]

theorem Fitting.expected_of_child (h : A.Fitting c vec) (hrt : root ∈ t) (he : e ∈ t) (hq : q < A.degree e)
    (hcou : (c (A.child e q)).count≠0) : expected t root c vec e ≠ 0 := by
  have hchi := A.child_mem e he q hq
  obtain hvec | ⟨v,rfl,rfl⟩ := h.cases he hq
  · rw [expected_of_none hvec,Ne,h.count_iff hvec he hrt,← h.count_iff hvec hchi hrt]
    exact hcou
  · rw [expected,vectors_root]
    intro hzr
    have hall := List.sum_eq_zero_iff_forall_eq_nat.mp hzr _ (List.mem_map_of_mem
      (List.mem_range.mpr (Topology.endpoint2Index_lt hchi)))
    exact hcou ((h.zero _ hchi).mp (((h.vector v rfl _ hchi).2).mp hall))

theorem Fitting.single (h : A.Fitting c vec) (he : e ∈ t) (hne : e≠root) (hvec : vec.isSome=true) :
    A.ranks e = [endpointAt t root (place t root e)] := by
  rw [ranks,A.size_leaf he (h.leaf hvec e he hne),List.range_one,List.map_singleton,add_zero]

variable (h : A.Fitting c vec) (hrt : root ∈ t) (he : e ∈ t) (hne : e ≠ root)

include h hrt he hne

theorem Fitting.ranks_len (hd : d ∈ A.ranks e) : blockLen c d = blockLen c e := by
  obtain ⟨hmem,-,-⟩ := (A.mem_ranks hrt he).mp hd
  cases hvec : vec with
  | none => rw [(h.equal hvec d hmem).1,(h.equal hvec e he).1]
  | some v =>
    rw [h.single he hne (by rw [hvec]; rfl),List.mem_singleton,endpointAt_place hrt he] at hd
    rw [hd]

theorem Fitting.block_length (hd : d ∈ A.ranks e) : (block c d).length = blockLen c e := by
  rw [block,length_readBytes,h.ranks_len hrt he hne hd]

theorem Fitting.length_collected : (A.collected c e).length = A.size e*blockLen c e := by
  rw [collected,length_flatMap fun _ hd => h.block_length hrt he hne hd,ranks,List.length_map,List.length_range]

theorem Fitting.part_collected (hd : d ∈ A.ranks e) :
    ((A.collected c e).drop ((place t root d-place t root e)*blockLen c e)).take (blockLen c e) = block c d :=
  take_drop_flatMap (fun _ hd => h.block_length hrt he hne hd) (A.ranks_getElem? hrt he hd)

end Fitting

section Slots

variable {A c vec} {e q d : ℕ} (h : A.Fitting c vec) (hrt : root ∈ t) (he : e ∈ t) (hq : q < A.degree e)

include h hrt he hq

theorem Fitting.slot_child (hd : d ∈ A.ranks (A.child e q)) : slot t root c vec e d =
    slot t root c vec e (A.child e q)+(place t root d-place t root (A.child e q))*blockLen c (A.child e q) := by
  have hchi := A.child_mem e he q hq
  have hpla := (A.child_place e he q hq).1
  have hrng := (A.mem_ranks hrt hchi).mp hd
  obtain hvec | ⟨v,hvec,rfl⟩ := h.cases he hq
  · subst hvec
    rw [slot,slot,vectors,ite_self,(h.equal rfl _ hchi).1]
    simp only
    rw [← add_mul]
    congr 1
    omega
  · rw [h.single hchi (A.child_ne_root hrt he hq) (by rw [hvec]; rfl),List.mem_singleton,
      endpointAt_place hrt hchi] at hd
    rw [hd,Nat.sub_self,zero_mul,add_zero]

theorem Fitting.slot_disjoint (hd : d ∈ t) (hlow : place t root e ≤ place t root d)
    (hout : place t root d < place t root (A.child e q) ∨
      place t root (A.child e q)+A.size (A.child e q) ≤ place t root d) (hapa : Apart t vec d) :
    slot t root c vec e d+blockLen c d ≤ slot t root c vec e (A.child e q) ∨
      slot t root c vec e (A.child e q)+(A.collected c (A.child e q)).length ≤ slot t root c vec e d ∨
        blockLen c d = 0 ∨ (A.collected c (A.child e q)).length=0 := by
  have hchi := A.child_mem e he q hq
  have hpla := (A.child_place e he q hq).1
  have hne := A.child_ne_root hrt he hq
  have hpos := A.size_pos hchi
  rw [h.length_collected hrt hchi hne]
  obtain hvec | ⟨v,hvec,rfl⟩ := h.cases he hq
  · subst hvec
    rw [slot,slot,vectors,ite_self,(h.equal rfl _ hchi).1,(h.equal rfl _ hd).1]
    simp only
    obtain hbef | hbeh := hout
    · left
      rw [← succ_mul]
      exact Nat.mul_le_mul_right _ (by omega)
    · right; left
      rw [← add_mul]
      exact Nat.mul_le_mul_right _ (by omega)
  · have hoth : A.child e q≠d := by
      rintro rfl
      omega
    have hsi := A.size_leaf hchi (h.leaf (by rw [hvec]; rfl) _ hchi hne)
    obtain ⟨hlen,hzr⟩ := h.vector v hvec _ hchi
    rw [hsi,one_mul]
    obtain hnn | hbef | hbeh := hapa v hvec _ hchi hoth
    · exact .inr (.inr (.inr (hzr.mp hnn)))
    · right; left
      subst hvec
      rw [slot,slot,vectors_root,← hlen]
      simp only
      rw [← add_mul]
      exact Nat.mul_le_mul_right _ hbef
    · left
      subst hvec
      rw [slot,slot,vectors_root,← (h.vector v rfl d hd).1]
      simp only
      rw [← add_mul]
      exact Nat.mul_le_mul_right _ hbeh

end Slots

section Stored

variable {A c vec} {e q d : ℕ} {x y : GatherExec V} {m m' : ℕ → GatherMessage V}

theorem Stored.congr (h : A.Stored c vec e x m)
    (hin : ∀ q < A.degree e, (m' (A.child e q)).incoming=true → (m (A.child e q)).incoming=true)
    (harr : ∀ q < A.degree e, (m' (A.child e q)).arrived=true → (m (A.child e q)).arrived=true) :
    A.Stored c vec e x m' where
  failed := h.failed
  bufcnt := h.bufcnt
  link := h.link
  own := h.own
  ownRoot := h.ownRoot
  record q hq hi := h.record q hq (hin q hq hi)
  held q hq ha := h.held q hq (harr q hq ha)

variable (hfit : A.Fitting c vec) (hrt : root ∈ t) (he : e ∈ t)

include hfit hrt he

theorem notifyRecv_child (hbuf : x.bufcnt = expected t root c vec e) (hq : q < A.degree e) :
    x.notifyRecv t root e (S e) (c e) vec (A.child e q) (S (A.child e q)).startphase =
      { x with
        mrecvstr := Function.update x.mrecvstr (recvIndex (S e) (A.child e q) (S (A.child e q)).startphase)
          ⟨slot t root c vec e (A.child e q),(A.collected c (A.child e q)).length,A.size (A.child e q)⟩ } := by
  have hchi := A.child_mem e he q hq
  have hne := A.child_ne_root hrt he hq
  have hind := decide_eq_false (Nat.not_le.mpr (A.recvIndex_lt he hq))
  have hli : ((S e).getRList (S (A.child e q)).startphase)[sourceIndex (S e) (A.child e q)
      (S (A.child e q)).startphase]? = some (A.child e q, A.size (A.child e q)) := by
    rw [A.sourceIndex_child he hq,A.getRList e he q hq]
    rfl
  have hsho := Nat.mod_eq_of_lt (hfit.short e he q hq)
  rw [hfit.length_collected hrt hchi hne,notifyRecv,hli]
  simp only [hind,Bool.or_false]
  obtain hvec | ⟨v,hvec,rfl⟩ := hfit.cases he hq
  · have hdist := place_sub hrt he hchi (A.child_place e he q hq).1
    rw [expected_of_none hvec] at hbuf
    subst hvec
    rw [slot,vectors,ite_self] at hsho
    simp only [vectors,ite_self,slot,hdist,hbuf,mul_assoc,(hfit.equal rfl e he).2,hsho,
      (hfit.equal rfl _ hchi).1,isSome_none,Bool.false_and,Bool.or_false]
  · have hleaf := A.size_leaf hchi (hfit.leaf (by rw [hvec]; rfl) _ hchi hne)
    subst hvec
    rw [slot,vectors_root] at hsho
    simp only [vectors_root,slot,hleaf,one_mul,(hfit.vector v rfl _ hchi).1,hsho,isSome_some,
      ne_eq,not_true_eq_false,decide_false,Bool.and_false,Bool.or_false]

section

variable (h : A.Stored c vec e x m)
include h

theorem Stored.incoming (hq : q < A.degree e)
    (hin : ∀ p < A.degree e, p≠q → (m' (A.child e p)).incoming=true → (m (A.child e p)).incoming=true)
    (harr : ∀ p < A.degree e, (m' (A.child e p)).arrived=true → (m (A.child e p)).arrived=true) :
    A.Stored c vec e (x.notifyRecv t root e (S e) (c e) vec (A.child e q) (S (A.child e q)).startphase) m' := by
  rw [notifyRecv_child hfit hrt he h.bufcnt hq]
  refine ⟨h.failed,h.bufcnt,h.link,h.own,h.ownRoot,fun p hp hi => ?_,fun p hp ha => h.held p hp (harr p hp ha)⟩
  by_cases heq : p=q
  · rw [heq]
    exact Function.update_self ..
  · refine (Function.update_of_ne (fun hsm => heq (A.recvIndex_inj he hp hq hsm)) _ _).trans ?_
    exact h.record p hp (hin p hp heq hi)

theorem Stored.tmpsize (hvec : vec=none) (hq : q < A.degree e) :
    slot t root c vec e (A.child e q)+(A.collected c (A.child e q)).length ≤ x.tmpsize t root e (S e) (c e) := by
  have hchi := A.child_mem e he q hq
  have hpla := A.child_place e he q hq
  have hbou := A.bound e he
  have hsi : (place t root (A.child e q)-place t root e)*blockLen c root +
      A.size (A.child e q)*blockLen c root ≤ A.size e*blockLen c root := by
    rw [← add_mul]
    exact Nat.mul_le_mul_right _ (by omega)
  have hbuf := h.bufcnt
  rw [expected_of_none hvec] at hbuf
  rw [hfit.length_collected hrt hchi (A.child_ne_root hrt he hq),(hfit.equal hvec _ hchi).1]
  subst hvec
  rw [slot,vectors,ite_self,tmpsize]
  by_cases heq : e=root
  · rw [if_pos heq,mul_assoc,(hfit.equal rfl e he).2]
    refine hsi.trans (Nat.mul_le_mul_right _ ?_)
    rw [heq,A.size_root]
  · obtain ⟨b,hb,k,hk,hkth⟩ := A.exists_parent e he heq
    have hphs : 1<(S e).mynphases := by
      rw [A.mynphases e he,if_neg heq]
      omega
    rw [if_neg heq,if_pos hphs,(h.link b hb k hk hkth).2,hbuf,mul_assoc]
    exact hsi.trans_eq (congrArg _ (hfit.equal rfl e he).1.symm)

theorem receive_child (hq : q < A.degree e) (hin : (m (A.child e q)).incoming=true) :
    x.receive t root e (S e) (c e) vec (recvIndex (S e) (A.child e q) (S (A.child e q)).startphase)
        (A.collected c (A.child e q)) =
      if (vectors root e vec).isSome then
        { x with rbuf := writeBytes x.rbuf (slot t root c vec e (A.child e q)) (A.collected c (A.child e q)) }
      else { x with tmpbuf := writeBytes x.tmpbuf (slot t root c vec e (A.child e q)) (A.collected c (A.child e q)) } := by
  rw [GatherExec.receive,h.record q hq hin]
  simp only [lt_irrefl,decide_false,Bool.or_false]
  obtain hvec | ⟨v,hvec,rfl⟩ := hfit.cases he hq
  · have hrm := decide_eq_false (Nat.not_lt.mpr (h.tmpsize hfit hrt he hvec hq))
    subst hvec
    simp only [GatherExec.vectors,ite_self,isSome_none,Bool.false_eq_true,if_false,hrm,Bool.or_false]
  · subst hvec
    simp only [vectors_root,isSome_some,if_true]

theorem Stored.arrive (hq : q < A.degree e) (hin : (m (A.child e q)).incoming=true)
    (hin' : ∀ p < A.degree e, (m' (A.child e p)).incoming=true → (m (A.child e p)).incoming=true)
    (harr : ∀ p < A.degree e, p≠q → (m' (A.child e p)).arrived=true → (m (A.child e p)).arrived=true) :
    A.Stored c vec e (x.receive t root e (S e) (c e) vec
      (recvIndex (S e) (A.child e q) (S (A.child e q)).startphase) (A.collected c (A.child e q))) m' := by
  have hchi := A.child_mem e he q hq
  have hne := A.child_ne_root hrt he hq
  have hpla := (A.child_place e he q hq).1
  rw [receive_child hfit hrt he h hq hin]
  generalize hy : (if (vectors root e vec).isSome then _ else _ : GatherExec V)=y
  have hmmr : memory root vec y e =
      writeBytes (memory root vec x e) (slot t root c vec e (A.child e q)) (A.collected c (A.child e q)) := by
    rw [← hy,memory,memory]
    split <;> rfl
  have hkp : y.failed=x.failed ∧ y.bufcnt=x.bufcnt ∧ y.dst=x.dst ∧ y.totallen=x.totallen ∧
      y.started=x.started ∧ y.mrecvstr=x.mrecvstr := by
    rw [← hy]
    split <;> exact ⟨rfl,rfl,rfl,rfl,rfl,rfl⟩
  have hoth : ∀ d ∈ t, place t root e ≤ place t root d → (place t root d < place t root (A.child e q) ∨
      place t root (A.child e q)+A.size (A.child e q) ≤ place t root d) → Apart t vec d →
        Holds t root c vec x e d → Holds t root c vec y e d := by
    intro d hd hlow hout hapa hhol
    rw [Holds,hmmr,readBytes_writeBytes_of_disjoint (hfit.slot_disjoint hrt he hq hd hlow hout hapa)]
    exact hhol
  refine ⟨hkp.1.trans h.failed,hkp.2.1.trans h.bufcnt,fun b hb k hk heq => ?_,fun hs hexp hne' hdeg => ?_,
    fun hs hexp heq hapa => ?_,fun p hp hi => ?_,fun p hp ha d hd hapa => ?_⟩
  · rw [hkp.2.2.1,hkp.2.2.2.1]
    exact h.link b hb k hk heq
  · rw [hkp.2.2.2.2.1] at hs
    obtain hvec | ⟨v,-,heq⟩ := hfit.cases he hq
    · refine hoth e he le_rfl (.inl hpla) ?_ (h.own hs hexp hne' hdeg)
      subst hvec
      exact fun v hv => by contradiction
    · exact absurd heq hne'
  · rw [hkp.2.2.2.2.1] at hs
    subst heq
    have hown := h.ownRoot hs hexp rfl hapa
    cases hvec : vec with
    | none =>
      have hrbuf : y.rbuf=x.rbuf := by
        rw [← hy,hvec,GatherExec.vectors,ite_self]
        rfl
      rw [hrbuf,← hvec]
      exact hown
    | some v =>
      subst hvec
      rw [← holds_root]
      exact hoth e he le_rfl (.inl hpla) hapa (holds_root.mpr hown)
  · rw [hkp.2.2.2.2.2]
    exact h.record p hp (hin' p hp hi)
  · obtain ⟨hmem,hlow,hhg⟩ := (A.mem_ranks hrt (A.child_mem e he p hp)).mp hd
    by_cases heq : p=q
    · subst heq
      have hpart := hfit.part_collected hrt hchi hne hd
      have hlen := hfit.ranks_len hrt hchi hne hd
      rw [Holds,hmmr,hfit.slot_child hrt he hp hd,hlen,readBytes_writeBytes,hpart]
      rw [hfit.length_collected hrt hchi hne,← succ_mul]
      exact Nat.mul_le_mul_right _ (by omega)
    · have hpla' := (A.child_place e he p hp).1
      refine hoth d hmem (by omega) ?_ hapa (h.held p hp (harr p hp heq ha) d hd hapa)
      have := A.child_disjoint e he q hq p hp (Ne.symm heq)
      omega

omit he h in
theorem copyOwn_root (hbuf : x.bufcnt = expected t root c vec root) :
    x.copyOwn t root root (S root) (c root) vec =
      { x with rbuf := writeBytes x.rbuf (target t root c vec root) (block c root) } := by
  rw [copyOwn,if_pos rfl,vectors_root]
  cases hvec : vec with
  | none =>
    rw [expected_of_none hvec] at hbuf
    simp only [target,block,hbuf,mul_assoc,(hfit.equal hvec root hrt).2]
  | some v => simp only [target,block,(hfit.vector v hvec root hrt).1]

theorem Stored.start :
    A.Stored c vec e (({ x with started := true } : GatherExec V).copyOwn t root e (S e) (c e) vec) m := by
  have hread : ∀ (buf : ℕ → V) (off : ℕ), readBytes (writeBytes buf off (block c e)) off (blockLen c e) = block c e := by
    intro buf off
    have hlen : 0+blockLen c e≤(block c e).length := by rw [block,length_readBytes,zero_add]
    have hwho := @readBytes_writeBytes V buf off _ 0 _ hlen
    rw [add_zero,List.drop_zero,List.take_of_length_le (by rw [block,length_readBytes])] at hwho
    exact hwho
  by_cases heq : e=root
  · subst heq
    rw [copyOwn_root (x := { x with started := true }) hfit hrt h.bufcnt]
    refine ⟨h.failed,h.bufcnt,h.link,fun _ _ hne => absurd rfl hne,fun _ _ _ _ => hread _ _,h.record,
      fun q hq ha d hd hapa => ?_⟩
    have hhl := h.held q hq ha d hd hapa
    obtain ⟨hmem,hlow,-⟩ := (A.mem_ranks hrt (A.child_mem e he q hq)).mp hd
    have hpla := (A.child_place e he q hq).1
    cases hvec : vec with
    | none =>
      subst hvec
      rw [Holds,memory,vectors,ite_self] at hhl ⊢
      exact hhl
    | some v =>
      subst hvec
      rw [holds_root] at hhl ⊢
      have hoth : e≠d := by
        rintro rfl
        omega
      obtain ⟨hlen,hzr⟩ := hfit.vector v rfl e he
      have hlen' := (hfit.vector v rfl d hmem).1
      rw [readBytes_writeBytes_of_disjoint]
      · exact hhl
      · rw [block,length_readBytes,target,target]
        rw [← hlen,← hlen',← add_mul,← add_mul]
        obtain hnn | hbef | hbeh := hapa v rfl e he hoth
        · exact .inr (.inr (.inr (by rw [hnn,zero_mul])))
        · exact .inr (.inl (Nat.mul_le_mul_right _ hbef))
        · exact .inl (Nat.mul_le_mul_right _ hbeh)
  · have hphs := A.mynphases e he
    rw [if_neg heq] at hphs
    rw [copyOwn,if_neg heq]
    by_cases hdeg : 0<A.degree e
    · rw [if_pos (by omega)]
      have hvec : vec=none := by
        obtain hvec | ⟨-,-,heq'⟩ := hfit.cases he hdeg
        · exact hvec
        · exact absurd heq' heq
      have hbuf := h.bufcnt
      rw [expected_of_none hvec] at hbuf
      have hblo : readBytes (c e).sbuf 0 (x.bufcnt*(c e).ssize) = block c e := by rw [hbuf]; rfl
      have hsl : ∀ d ∈ t, slot t root c vec e d = (place t root d-place t root e)*blockLen c e := by
        intro d hd
        rw [slot,hvec,vectors,ite_self,(hfit.equal hvec e he).1]
      have hmmr : ∀ z : GatherExec V, memory root vec z e=z.tmpbuf := by
        intro z
        rw [memory,vectors_of_ne vec heq]
        rfl
      refine ⟨h.failed,h.bufcnt,h.link,fun _ _ _ _ => ?_,fun _ _ heq' => absurd heq' heq,h.record,
        fun q hq ha d hd hapa => ?_⟩
      · rw [Holds,hmmr,hsl e he,Nat.sub_self,zero_mul]
        simp only [hblo]
        exact hread _ _
      · have hhl := h.held q hq ha d hd hapa
        obtain ⟨hmem,hlow,-⟩ := (A.mem_ranks hrt (A.child_mem e he q hq)).mp hd
        have hpla := (A.child_place e he q hq).1
        rw [Holds,hmmr,hsl d hmem] at hhl ⊢
        simp only [hblo]
        rw [readBytes_writeBytes_of_disjoint]
        · exact hhl
        · right; left
          rw [zero_add,block,length_readBytes]
          exact Nat.le_mul_of_pos_left _ (by omega)
    · rw [if_neg (by omega)]
      exact ⟨h.failed,h.bufcnt,h.link,fun _ _ _ hdeg' => absurd hdeg' hdeg,fun _ _ heq' => absurd heq' heq,
        h.record,fun q hq => absurd (zero_lt_of_lt hq) hdeg⟩

end

end Stored

end GatherTree

end PAMI.Executor
