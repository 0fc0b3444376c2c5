import PAMI.Executor.Scatter
import PAMI.Math.CircularBuffer

namespace PAMI.Executor

open PAMI.Math PAMI.Schedule GenericTreeSchedule Function Splitting List Option Nat Bool

namespace ScatterExec

variable {V : Type*} {ports : ℕ} {hpor : 0 < (knomial ports).nports} {t : Topology} {root e q : ℕ} {sbuf : ℕ → V}
  {S : ScatterSchedule}

/-- The phases and children of a rank that has one child in each phase. -/
structure Scheduled (hpor : 0 < (knomial ports).nports) (t : Topology) (root e : ℕ) (S : ScatterSchedule) :
    Prop where
  startphase : S.startphase + (if e = root then 0 else 1) = first hpor t root e
  nphases : S.nphases = degree hpor t root e + if e = root then 0 else 1
  children : ∀ q < degree hpor t root e,
    S.children (first hpor t root e + q) = [(child hpor t root e q, childSize hpor t root e q)]
  before : ∀ p < first hpor t root e, S.children p = []

variable (hpor) in
theorem scheduled (hrt : root ∈ t) (he : e ∈ t) (h : OneChild ports t.size) (hle : ports ≤ maxConcurrent) :
    (setSchedule ports t root e).isSome=true ∧ Scheduled hpor t root e (schedule ports t root e) := by
  obtain ⟨s,hs,hf⟩ := init_single (single_knomial h hpor) hrt he
  have hsch : setSchedule ports t root e = some s := by rw [setSchedule,hs,bind_some,if_pos hle]
  refine ⟨by rw [hsch]; rfl,?_⟩
  rw [schedule,hsch,elim_some]
  have hlst := hf.lstartph
  have hmyn := hf.mynphs
  rw [hf.nphs] at hmyn
  have hbef : ∀ p<first hpor t root e, (s.getRList p).zip (s.getRLens p) = [] := by
    intro p hp
    have hnn : s.getRListNpes p=0 := if_neg (by rw [hf.rstartph]; omega)
    rw [GenericTreeSchedule.getRList,hnn,Int.toNat_zero,Nat.min_zero,range_zero,map_nil,zip_nil_left]
  by_cases hpla : place t root e=0
  · have heq := (eq_root_iff hrt he).mpr hpla
    have hfir : first hpor t root e=0 := by rw [first,hpla,arrival_zero]
    rw [if_pos hpla] at hlst
    refine ⟨?_,?_,fun q hq => ?_,hbef⟩
    · simp only [hlst,hfir,if_pos heq,Int.toNat_zero]
    · simp only [hmyn,hlst,hfir,if_pos heq]
      omega
    · simp only [(hf.getRList_child hrt he h hq).1,(hf.getRList_child hrt he h hq).2]
      rfl
  · have hne := mt (eq_root_iff hrt he).mp hpla
    have hfir : 0<first hpor t root e := by
      rw [first,arrival_of_pos (place_lt hrt he) (pos_of_ne_zero hpla)]
      exact succ_pos _
    rw [if_neg hpla] at hlst
    refine ⟨?_,?_,fun q hq => ?_,hbef⟩
    · simp only [hlst,if_neg hne]
      omega
    · simp only [hmyn,hlst,if_neg hne]
      omega
    · simp only [(hf.getRList_child hrt he h hq).1,(hf.getRList_child hrt he h hq).2]
      rfl

variable (hpor) in
theorem isChild_iff {a b : ℕ} (hrt : root ∈ t) (ha : a ∈ t) (h : OneChild ports t.size)
    (hle : ports ≤ maxConcurrent) :
    IsChild ports t root a b ↔ ∃ q < degree hpor t root a, child hpor t root a q = b := by
  have hS := (scheduled hpor hrt ha h hle).2
  have hsta := hS.startphase
  have hphs := hS.nphases
  have hend : (schedule ports t root a).startphase+(schedule ports t root a).nphases =
      first hpor t root a+degree hpor t root a := by omega
  constructor
  · rintro ⟨p,-,hp,hb⟩
    rw [hend] at hp
    by_cases hlow : p<first hpor t root a
    · rw [hS.before p hlow,map_nil] at hb
      contradiction
    · obtain ⟨q,rfl⟩ := Nat.exists_eq_add_of_le (not_lt.mp hlow)
      have hq : q<degree hpor t root a := by omega
      rw [hS.children q hq,map_singleton,mem_singleton] at hb
      exact ⟨q,hq,hb.symm⟩
  · rintro ⟨q,hq,rfl⟩
    refine ⟨first hpor t root a+q,by omega,by omega,?_⟩
    rw [hS.children q hq,map_singleton]
    exact mem_singleton_self _

variable (hpor) in
theorem inSubtree_iff {a : ℕ} (hrt : root ∈ t) (ha : a ∈ t) (h : OneChild ports t.size)
    (hle : ports ≤ maxConcurrent) : InSubtree ports t root a e ↔ e ∈ t ∧ place t root a ≤ place t root e ∧
      place t root e < place t root a+subtree hpor t root a := by
  have hsin := single_knomial h hpor
  have hbel : InSubtree ports t root a e ↔ e ∈ t ∧ Below hpor t root a e := by
    constructor
    · intro hin
      induction hin with
      | refl => exact ⟨ha,.refl⟩
      | tail _ hsp ih =>
        obtain ⟨q,hq,rfl⟩ := (isChild_iff hpor hrt ih.1 h hle).mp hsp
        exact ⟨child_mem hrt ih.1 hq,ih.2.tail ⟨q,hq,rfl⟩⟩
    · rintro ⟨-,hbel⟩
      suffices hall : e ∈ t ∧ InSubtree ports t root a e from hall.2
      induction hbel with
      | refl => exact ⟨ha,.refl⟩
      | tail _ hsp ih =>
        obtain ⟨q,hq,rfl⟩ := hsp
        exact ⟨child_mem hrt ih.1 hq,ih.2.tail ((isChild_iff _ hrt ih.1 h hle).mpr ⟨q,hq,rfl⟩)⟩
  rw [hbel]
  exact and_congr_right fun he => below_iff hsin hrt ha he

def blockAt (t : Topology) (root : ℕ) (sbuf : ℕ → V) (c : ℕ) : V := sbuf (t.endpoint2Index (endpointAt t root c))

theorem index_endpointAt (hrt : root ∈ t) {c : ℕ} (hc : c<t.size) :
    t.endpoint2Index (endpointAt t root c) =
      if t.size ≤ c+t.endpoint2Index root then c+t.endpoint2Index root-t.size
      else c+t.endpoint2Index root := by
  have hr := Topology.endpoint2Index_lt hrt
  rw [endpointAt,TopologyMap.getGlobalRank_rooted,Topology.endpoint2Index_index2Endpoint]
  split <;> omega

theorem blockAt_place (hrt : root ∈ t) (he : e ∈ t) : blockAt t root sbuf (place t root e) =
    sbuf (t.endpoint2Index e) := by
  rw [blockAt,endpointAt_place hrt he]

/-- The root is endpoint 0 with the index 0, or another endpoint; or it sends each block from its place. -/
def RootPlaced (t : Topology) (root : ℕ) : Prop := root = 0 → t.endpoint2Index root = 0 ∨ t.size ≤ 3

variable (hpor) in
theorem flat_of_few (h : OneChild ports t.size) (hpos : 0<t.size) (hfew : t.size≤3) :
    ((knomial ports).splitting hpor).splits t.size+1 = t.size := by
  have hpor' : 0<ports := hpor
  by_cases hmn : 1<t.size
  · have hbig := knomial_pbig h hpor' hmn le_rfl
    have hspl : ((knomial ports).splitting hpor).splits t.size =
        ((knomial ports).splitting hpor).splits ((knomial ports).pbig t.size)+1 := splits_of_lt hmn
    by_cases htwo : t.size=2
    · rw [hspl,hbig,htwo,splits_of_le (by decide)]
    · have hthr : t.size=3 := by omega
      have hbig' := knomial_pbig (n := 2) h hpor' (by decide) (by omega)
      have hspl' : ((knomial ports).splitting hpor).splits 2 =
          ((knomial ports).splitting hpor).splits ((knomial ports).pbig 2)+1 := splits_of_lt (by decide)
      rw [hthr] at hspl hbig
      rw [hthr,hspl,hbig,show (3+1)/2=2 from rfl,hspl',hbig',splits_of_le (by decide)]
  · rw [splits_of_le (not_lt.mp hmn)]
    omega

/-- What is read for a child are the blocks of its subtree. -/
def Reads (hpor : 0 < (knomial ports).nports) (t : Topology) (root e q : ℕ) (S : ScatterSchedule)
    (sbuf tmpbuf : ℕ → V) : Prop :=
  (window t e S (child hpor t root e q, childSize hpor t root e q)).length = childSize hpor t root e q ∧
    ∀ j < childSize hpor t root e q,
      tmpbuf ((window t e S (child hpor t root e q, childSize hpor t root e q)).offset + j) =
        blockAt t root sbuf (place t root (child hpor t root e q) + j)

theorem reads_root (hrt : root ∈ t) (h : OneChild ports t.size) (hplc : RootPlaced t root)
    (hS : Scheduled hpor t root root S) (hq : q < degree hpor t root root) (x : ScatterExec V) :
    Reads hpor t root root q S sbuf (setBuffers t root root S sbuf x).tmpbuf := by
  have hpos := Topology.size_pos hrt
  have hr := Topology.endpoint2Index_lt hrt
  have hchi : child hpor t root root q ∈ t := child_mem hrt hrt hq
  have hlt := place_lt hrt hchi
  have hbnd := child_bounds hrt hrt hq
  have hwho : subtree hpor t root root=t.size := by rw [subtree,place_root hrt,Splitting.size_zero]
  have hphs := hS.nphases
  rw [if_pos rfl,add_zero,degree,hwho] at hphs
  have hin : place t root (child hpor t root root q)+childSize hpor t root root q≤t.size := by
    rw [place_child hrt hrt hq,place_root hrt]
    omega
  simp only [Reads,window,setBuffers,if_true]
  by_cases hflat : S.nphases=t.size-1
  · have hone : childSize hpor t root root q=1 := by
      have hspl : ((knomial ports).splitting hpor).splits t.size+1=t.size := by omega
      have hq' : q<((knomial ports).splitting hpor).splits t.size := by
        rw [degree,hwho] at hq
        exact hq
      rw [childSize,hwho]
      exact child_of_flat hpos hspl hq'
    simp only [if_pos hflat,if_pos (Or.inl hflat),hone]
    refine ⟨trivial,fun j hj => ?_⟩
    obtain rfl : j=0 := by omega
    rw [add_zero,add_zero,blockAt_place hrt hchi]
  · have hoft : (t.endpoint2Index (child hpor t root root q)+t.size-t.endpoint2Index root)%t.size =
        place t root (child hpor t root root q) := start_curPos hrt hchi
    simp only [if_neg hflat,hoft]
    refine ⟨trivial,fun j hj => ?_⟩
    have hinx := index_endpointAt hrt (c := place t root (child hpor t root root q)+j) (by omega)
    rw [blockAt,hinx]
    split
    case isTrue hzr =>
      obtain hinx | hfew := hplc (hzr.resolve_left hflat)
      · rw [hinx,if_neg (by omega),add_zero]
      · exact absurd (by have := flat_of_few hpor h hpos hfew; omega) hflat
    case isFalse =>
      dsimp only
      split <;> split <;> first | omega | (congr 1; omega)

theorem not_flat (hrt : root ∈ t) (he : e ∈ t) (hne : e≠root) (h : OneChild ports t.size)
    (hS : Scheduled hpor t root e S) (hq : 0 < degree hpor t root e) : S.nphases≠t.size-1 := by
  have hlt := place_lt hrt he
  have hpos : 0<place t root e := pos_of_ne_zero (mt (eq_root_iff hrt he).mpr hne)
  have hhalf := size_le_half (single_knomial h hpor)
    (fun n hn hle => by rw [knomial_pbig h hpor hn hle]; omega) le_rfl hpos hlt
  have hspl := splits_lt hpor (subtree_pos hpor hrt he)
  have hphs := hS.nphases
  rw [if_neg hne] at hphs
  rw [degree] at hphs hq
  rw [← subtree] at hhalf
  have hmn : 1 < subtree hpor t root e := by omega
  omega

theorem reads_inner (hrt : root ∈ t) (he : e ∈ t) (hne : e≠root) (h : OneChild ports t.size)
    (hS : Scheduled hpor t root e S) (hq : q < degree hpor t root e) {tmpbuf : ℕ → V}
    (htmp : ∀ j < subtree hpor t root e, tmpbuf j = blockAt t root sbuf (place t root e+j)) :
    Reads hpor t root e q S sbuf tmpbuf := by
  have hbnd := child_bounds hrt he hq
  have hle := subtree_le hpor hrt he
  have hlt := place_lt hrt he
  have hi := Topology.endpoint2Index_lt he
  have hinx : t.endpoint2Index (child hpor t root e q) =
      (t.endpoint2Index e+(knomial ports).pbig^[q+1] (subtree hpor t root e))%t.size := by
    rw [child,← partner_eq hrt he (by omega),
      Topology.endpoint2Index_index2Endpoint (mod_lt _ (Topology.size_pos he))]
  have hoft := turn_sub hi (k := (knomial ports).pbig^[q+1] (subtree hpor t root e)) (by
    have hpos : 0<place t root e := pos_of_ne_zero (mt (eq_root_iff hrt he).mpr hne)
    omega)
  rw [← hinx] at hoft
  simp only [Reads,window,if_neg (not_flat hrt he hne h hS (zero_lt_of_lt hq)),hoft]
  refine ⟨trivial,fun j hj => ?_⟩
  rw [htmp _ (by omega),place_child hrt he hq,add_assoc]

/-- A rank that has not begun. -/
structure Fresh (x : ScatterExec V) : Prop where
  donecount : x.donecount = 0
  dones : x.dones = 0
  posted : ∀ p, x.posted p = false

/-- A rank that has begun, and how many of its sends are over. -/
structure Positioned (hpor : 0 < (knomial ports).nports) (t : Topology) (root e q : ℕ) (sbuf : ℕ → V)
    (x : ScatterExec V) : Prop where
  le : q ≤ degree hpor t root e
  curphase : e = root ∨ 0 < degree hpor t root e → x.curphase = first hpor t root e + q
  posted : ∀ p, x.posted p = true ↔ first hpor t root e ≤ p ∧ p ≤ first hpor t root e + q ∧
    p < first hpor t root e + degree hpor t root e
  sending : q < degree hpor t root e → x.donecount = 1 ∧ x.dones = 0
  done : q = degree hpor t root e → x.dones = 1 ∧ x.rbuf = sbuf (t.endpoint2Index e)

variable (sbuf) in
theorem sendNext_positioned {S : ScatterSchedule} (hS : Scheduled hpor t root e S)
    (hq : q ≤ degree hpor t root e) {y : ScatterExec V} (hcur : y.curphase = first hpor t root e+q)
    (hcou : y.donecount=0) (hdon : y.dones=0) (hfai : y.failed=false)
    (hpst : ∀ p, y.posted p = true ↔ first hpor t root e ≤ p ∧ p < first hpor t root e+q)
    (hrbuf : e≠root → (if 1<S.nphases then y.tmpbuf 0 else y.rbuf) = sbuf (t.endpoint2Index e)) :
    Positioned hpor t root e q sbuf (sendNext t root e S sbuf y) ∧ (sendNext t root e S sbuf y).failed=false := by
  have hsta := hS.startphase
  have hphs := hS.nphases
  have hend : S.startphase+S.nphases=first hpor t root e+degree hpor t root e := by omega
  rw [sendNext,if_neg (by omega),hcur,hend]
  split
  case isTrue hla =>
    refine ⟨⟨hq,fun _ => rfl,fun p => ?_,fun hlt => absurd hla (by omega),fun _ => ⟨?_,?_⟩⟩,hfai⟩
    · rw [hpst]
      omega
    · simp only [hdon]
    · by_cases heq : e=root
      · simp only [if_pos heq]
      · simp only [if_neg heq]
        exact hrbuf heq
  case isFalse hla =>
    have hlt : q<degree hpor t root e := by omega
    refine ⟨⟨hq,fun _ => rfl,fun p => ?_,fun _ => ⟨?_,hdon⟩,fun hno => absurd hno hlt.ne⟩,?_⟩
    · by_cases heq : p=first hpor t root e+q
      · subst heq
        simp only [update_self]
        exact iff_of_true trivial ⟨Nat.le_add_right _ _,le_rfl,by omega⟩
      · simp only [update_of_ne heq]
        rw [hpst]
        omega
    · simp only [hS.children q hlt]
      rfl
    · simp only [hfai,hcou,ne_eq,not_true_eq_false,decide_false,Bool.or_self]

variable (t root e sbuf) in
theorem sendNext_tmpbuf (S : ScatterSchedule) (y : ScatterExec V) :
    (sendNext t root e S sbuf y).tmpbuf=y.tmpbuf ∧ (sendNext t root e S sbuf y).begun=y.begun := by
  rw [sendNext]
  split
  · exact ⟨rfl,rfl⟩
  · split <;> exact ⟨rfl,rfl⟩

/-- The blocks of the subtree of a rank, and a rank that has got them. -/
def blocks (hpor : 0 < (knomial ports).nports) (t : Topology) (root : ℕ) (sbuf : ℕ → V) (e : ℕ) : List V :=
  (List.range (subtree hpor t root e)).map fun j => blockAt t root sbuf (place t root e + j)

structure Stored (hpor : 0 < (knomial ports).nports) (t : Topology) (root : ℕ) (sbuf : ℕ → V) (e : ℕ)
    (x : ScatterExec V) : Prop where
  inner : 0 < degree hpor t root e → ∀ j < subtree hpor t root e,
    x.tmpbuf j = blockAt t root sbuf (place t root e + j)
  leaf : degree hpor t root e = 0 → x.rbuf = sbuf (t.endpoint2Index e)

variable (sbuf) in
theorem stored_receive (hrt : root ∈ t) (he : e ∈ t) (hne : e≠root) {S : ScatterSchedule}
    (hS : Scheduled hpor t root e S) {x : ScatterExec V} (hfai : x.failed=false) :
    Stored hpor t root sbuf e (receive t S (blocks hpor t root sbuf e) x) ∧
      (receive t S (blocks hpor t root sbuf e) x).failed=false := by
  have hphs := hS.nphases
  have hsi := subtree_le hpor hrt he
  have hlng : (blocks hpor t root sbuf e).length=subtree hpor t root e := by rw [blocks,length_map,length_range]
  rw [if_neg hne] at hphs
  rw [receive,hphs,hlng]
  split
  case isTrue hinn =>
    refine ⟨⟨fun _ j hj => ?_,fun hleaf => absurd hinn (by omega)⟩,?_⟩
    · simp only [blocks,List.getElem?_map,List.getElem?_range hj,map_some,getD_some]
    · rw [hfai,Bool.false_or,decide_eq_false_iff_not]
      omega
  case isFalse hleaf =>
    have hone : subtree hpor t root e=1 := by
      have hpos := subtree_pos hpor hrt he
      by_contra hmn
      have hlt : 1 < subtree hpor t root e := by omega
      have hspl : degree hpor t root e=((knomial ports).splitting hpor).splits
          ((knomial ports).pbig (subtree hpor t root e))+1 := splits_of_lt hlt
      omega
    refine ⟨⟨fun hinn => absurd hinn (by omega),fun _ => ?_⟩,?_⟩
    · simp only [blocks,hone,range_one,map_singleton,List.head?_cons,getD_some,add_zero]
      exact blockAt_place hrt he
    · rw [hfai,Bool.false_or,decide_eq_false_iff_not,hone]
      omega

theorem positioned_received (hrt : root ∈ t) (he : e ∈ t) (hne : e≠root)
    (hS : Scheduled hpor t root e S) {x : ScatterExec V} (hfre : Fresh x) (hfai : x.failed=false)
    (hsto : Stored hpor t root sbuf e x) :
    Positioned hpor t root e 0 sbuf (received t root e S sbuf x) ∧ (received t root e S sbuf x).failed=false := by
  have hsta := hS.startphase
  have hphs := hS.nphases
  rw [if_neg hne] at hsta hphs
  rw [received]
  split
  case isTrue hinn =>
    apply sendNext_positioned _ (y := { x with curphase := S.startphase+1, begun := true }) hS (zero_le _)
      (by rw [add_zero]; exact hsta) hfre.donecount hfre.dones hfai
    · intro p
      simp only [hfre.posted p,false_eq_true,false_iff]
      omega
    · intro _
      have hzr := hsto.inner (by omega) 0 (subtree_pos _ hrt he)
      rw [add_zero,blockAt_place hrt he] at hzr
      simp only [if_pos hinn,hzr]
  case isFalse hleaf =>
    have hdeg : degree hpor t root e=0 := by omega
    refine ⟨⟨zero_le _,fun hor => ?_,fun p => ?_,fun hlt => absurd hlt (by omega),fun _ => ⟨?_,?_⟩⟩,hfai⟩
    · obtain heq | hpos := hor
      · exact absurd heq hne
      · exact absurd hpos (by omega)
    · simp only [hfre.posted p,false_eq_true,false_iff]
      omega
    · simp only [hfre.dones]
    · exact hsto.leaf hdeg

end ScatterExec

namespace ScatterSystem

open ScatterExec

variable {V : Type*} {ports : ℕ} {hpor : 0 < (knomial ports).nports} {t : Topology} {root r a p i e q : ℕ}
  {sbuf : ℕ → V} {s s' : ScatterSystem V}

/-- What holds between the events. -/
structure Scatters (hpor : 0 < (knomial ports).nports) (t : Topology) (root : ℕ) (sbuf : ℕ → V)
    (s : ScatterSystem V) : Prop where
  failed : ∀ e, (s.rank e).failed = false
  outside : ∀ e, e ∉ t → ∀ p, (s.rank e).posted p = false
  fresh : ∀ e ∈ t, (s.rank e).begun = false → Fresh (s.rank e)
  positioned : ∀ e ∈ t, (s.rank e).begun = true → ∃ q, Positioned hpor t root e q sbuf (s.rank e) ∧
    ∀ k < degree hpor t root e, ((s.message e (first hpor t root e + k) 0).sent = true ↔ k < q)
  reads : ∀ q < degree hpor t root root,
    Reads hpor t root root q (schedule ports t root root) sbuf (s.rank root).tmpbuf
  data : ∀ a p i v, (s.message a p i).data = some v → a ∈ t ∧ i = 0 ∧ (s.rank a).posted p = true ∧
    ∃ q < degree hpor t root a, p = first hpor t root a + q ∧ v = blocks hpor t root sbuf (child hpor t root a q)
  ordered : ∀ a p i, ((s.message a p i).sent = true → (s.message a p i).data.isSome = true) ∧
    ((s.message a p i).incoming = true → (s.message a p i).data.isSome = true) ∧
    ((s.message a p i).complete = true → (s.message a p i).incoming = true)
  begun : ∀ a ∈ t, ∀ q < degree hpor t root a,
    (s.message a (first hpor t root a + q) 0).complete = (s.rank (child hpor t root a q)).begun
  stored : ∀ a ∈ t, ∀ q < degree hpor t root a, (s.message a (first hpor t root a + q) 0).incoming = true →
    Stored hpor t root sbuf (child hpor t root a q) (s.rank (child hpor t root a q))

theorem scatters_new (hrt : root ∈ t) (h : OneChild ports t.size) (hle : ports ≤ maxConcurrent)
    (hplc : RootPlaced t root) (tmpbuf : ℕ → ℕ → V) (rbuf : ℕ → V) :
    Scatters hpor t root sbuf (new ports t root sbuf tmpbuf rbuf) := by
  have hnew : ∀ e, ((new ports t root sbuf tmpbuf rbuf).rank e).failed=false ∧
      ((new ports t root sbuf tmpbuf rbuf).rank e).begun=false ∧
        Fresh ((new ports t root sbuf tmpbuf rbuf).rank e) := by
    intro e
    simp only [new,setBuffers]
    split <;> exact ⟨rfl,rfl,rfl,rfl,fun _ => rfl⟩
  refine ⟨fun e => (hnew e).1,fun e _ => (hnew e).2.2.posted,fun e _ _ => (hnew e).2.2,fun e _ hbeg => ?_,
    fun q hq => ?_,fun _ _ _ _ hno => by contradiction,fun _ _ _ => ⟨?_,?_,?_⟩,fun _ _ _ _ => ?_,
    fun _ _ _ _ hno => by contradiction⟩
  · exact absurd ((hnew e).2.1.symm.trans hbeg) Bool.false_ne_true
  · exact reads_root hrt h hplc (scheduled _ hrt hrt h hle).2 hq _
  · exact fun hno => by contradiction
  · exact fun hno => by contradiction
  · exact fun hno => by contradiction
  · exact (hnew _).2.1.symm

theorem Scatters.advance (h : Scatters hpor t root sbuf s) (hr : r ∈ t) {x : ScatterExec V}
    (hrk : s'.rank = update s.rank r x)
    (hsm : ∀ a p i, (s'.message a p i).data=(s.message a p i).data ∧
      (s'.message a p i).incoming=(s.message a p i).incoming)
    (hoth : ∀ a p i, a≠r → (s'.message a p i).sent=(s.message a p i).sent)
    (hord : ∀ a p i, ((s'.message a p i).sent=true → (s.message a p i).data.isSome=true) ∧
      ((s'.message a p i).complete=true → (s.message a p i).incoming=true))
    (hcom : ∀ a ∈ t, ∀ q < degree hpor t root a,
      (s'.message a (first hpor t root a+q) 0).complete=(s'.rank (child hpor t root a q)).begun)
    (hfai : x.failed=false) (hbeg : x.begun=true) (htmp : x.tmpbuf=(s.rank r).tmpbuf)
    (hpst : ∀ p, (s.rank r).posted p = true → x.posted p = true)
    (hpod : ∃ q, Positioned hpor t root r q sbuf x ∧
      ∀ k < degree hpor t root r, ((s'.message r (first hpor t root r+k) 0).sent=true ↔ k<q)) :
    Scatters hpor t root sbuf s' := by
  have hse : s'.rank r=x := by rw [hrk,update_self]
  have hots : ∀ e, e≠r → s'.rank e = s.rank e := fun e hne => by rw [hrk,update_of_ne hne]
  refine ⟨fun e => ?_,fun e he => ?_,fun e he hfre => ?_,fun e he hbeg' => ?_,fun q hq => ?_,
    fun a p i v hv => ?_,fun a p i => ?_,hcom,fun a ha q hq hinc => ?_⟩
  · by_cases heq : e=r
    · rw [heq,hse,hfai]
    · rw [hots e heq,h.failed e]
  · have hne : e≠r := fun heq => he (heq ▸ hr)
    rw [hots e hne]
    exact h.outside e he
  · by_cases heq : e=r
    · rw [heq,hse,hbeg] at hfre
      contradiction
    · rw [hots e heq] at hfre ⊢
      exact h.fresh e he hfre
  · by_cases heq : e=r
    · rw [heq,hse]
      exact hpod
    · rw [hots e heq] at hbeg' ⊢
      obtain ⟨q,hq,hsn⟩ := h.positioned e he hbeg'
      refine ⟨q,hq,fun k hk => ?_⟩
      rw [hoth e _ _ heq]
      exact hsn k hk
  · by_cases heq : root=r
    · rw [heq,hse,htmp,← heq]
      exact h.reads q hq
    · rw [hots root heq]
      exact h.reads q hq
  · rw [(hsm a p i).1] at hv
    obtain ⟨ha,hi,hps,hq⟩ := h.data a p i v hv
    refine ⟨ha,hi,?_,hq⟩
    by_cases heq : a=r
    · rw [heq,hse]
      exact hpst p (heq ▸ hps)
    · rw [hots a heq]
      exact hps
  · rw [(hsm a p i).1,(hsm a p i).2]
    exact ⟨(hord a p i).1,(h.ordered a p i).2.1,(hord a p i).2⟩
  · rw [(hsm a _ 0).2] at hinc
    have hsto := h.stored a ha q hq hinc
    by_cases heq : child hpor t root a q=r
    · rw [heq,hse]
      rw [heq] at hsto
      obtain ⟨k,hk,-⟩ := hpod
      refine ⟨fun hinn => htmp ▸ hsto.inner hinn,fun hleaf => (hk.done ?_).2⟩
      have hle := hk.le
      omega
    · rw [hots _ heq]
      exact hsto

theorem rank_setRank (s : ScatterSystem V) (r : ℕ) (x : ScatterExec V) : (s.setRank r x).rank r = x :=
  update_self _ _ _

theorem rank_setRank_of_ne (s : ScatterSystem V) (x : ScatterExec V) (hne : e≠r) :
    (s.setRank r x).rank e = s.rank e := update_of_ne hne _ _

theorem message_setRank (s : ScatterSystem V) (r : ℕ) (x : ScatterExec V) : (s.setRank r x).message=s.message := rfl

theorem apply_setMessage {β : Type*} (f : Transfer V → β) {m : Transfer V} (hm : f m = f (s.message a p i))
    (a' p' i' : ℕ) : f ((s.setMessage a p i m).message a' p' i') = f (s.message a' p' i') := by
  simp only [setMessage]
  split
  case isTrue heq =>
    obtain ⟨rfl,rfl,rfl⟩ := heq
    exact hm
  case isFalse => rfl

theorem message_setMessage (s : ScatterSystem V) (a p i : ℕ) (m : Transfer V) :
    (s.setMessage a p i m).message a p i = m := if_pos ⟨rfl,rfl,rfl⟩

theorem message_setMessage_of_ne (s : ScatterSystem V) (m : Transfer V) {a' p' i' : ℕ}
    (hne : ¬ (a'=a ∧ p'=p ∧ i'=i)) : (s.setMessage a p i m).message a' p' i' = s.message a' p' i' :=
  if_neg hne

section Steps

variable (hrt : root ∈ t) (hone : OneChild ports t.size) (hle : ports ≤ maxConcurrent)

include hrt hone hle

variable (hpor) in
theorem dest_eq (ha : a ∈ t) (hq : q < degree hpor t root a) :
    dest ports t root a (first hpor t root a+q) i =
      if i=0 then some (child hpor t root a q, childSize hpor t root a q) else none := by
  rw [dest,(scheduled _ hrt ha hone hle).2.children q hq]
  cases i with
  | zero | succ i => rfl

section

variable (h : Scatters hpor t root sbuf s)
include h

omit hrt hone hle in
theorem Scatters.of_posted (hpst : (s.rank a).posted p = true) :
    a ∈ t ∧ (s.rank a).begun=true ∧ ∃ k < degree hpor t root a, p = first hpor t root a+k ∧
      ∃ q, k≤q ∧ Positioned hpor t root a q sbuf (s.rank a) ∧
        ∀ k < degree hpor t root a, ((s.message a (first hpor t root a+k) 0).sent=true ↔ k<q) := by
  have ha : a ∈ t := by
    by_contra hno
    exact Bool.false_ne_true ((h.outside a hno p).symm.trans hpst)
  have hbeg : (s.rank a).begun=true := by
    by_contra hno
    exact Bool.false_ne_true (((h.fresh a ha (not_eq_true _ ▸ hno)).posted p).symm.trans hpst)
  obtain ⟨q,hq,hsn⟩ := h.positioned a ha hbeg
  obtain ⟨hlow,hhg,hlt⟩ := (hq.posted p).mp hpst
  exact ⟨ha,hbeg,p-first hpor t root a,by omega,by omega,q,by omega,hq,hsn⟩

omit hle in
theorem Scatters.stored_of_begun (he : e ∈ t) (hne : e≠root) (hbeg : (s.rank e).begun=true) :
    Stored hpor t root sbuf e (s.rank e) := by
  obtain ⟨a,ha,q,hq,rfl,-⟩ := exists_parent (single_knomial hone hpor) hrt he hne
  rw [← h.begun a ha q hq] at hbeg
  exact h.stored a ha q hq ((h.ordered a _ 0).2.2 hbeg)

theorem Scatters.start (hs : s.start ports t root sbuf root = some s') : Scatters hpor t root sbuf s' := by
  obtain ⟨hno,hs⟩ := ite_none_left_eq_some.mp hs
  obtain rfl := some.inj hs
  have hid := not_eq_true _ ▸ hno
  have hfre := h.fresh root hrt hid
  have hfir : first hpor t root root=0 := by rw [first,place_root hrt,arrival_zero]
  have hsd := sendNext_positioned sbuf (y := { s.rank root with curphase := 0, begun := true })
    (scheduled _ hrt hrt hone hle).2 (zero_le _) (by rw [hfir]) hfre.donecount hfre.dones (h.failed root)
    (fun p => by simp only [hfre.posted p,false_eq_true,false_iff]; omega) fun hne => absurd rfl hne
  have hkp := sendNext_tmpbuf t root root sbuf (schedule ports t root root)
    { s.rank root with curphase := 0, begun := true }
  rw [ScatterExec.start,if_pos rfl]
  refine h.advance hrt rfl (fun _ _ _ => ⟨rfl,rfl⟩) (fun _ _ _ _ => rfl)
    (fun a p i => ⟨(h.ordered a p i).1,(h.ordered a p i).2.2⟩) (fun a ha q hq => ?_) hsd.2 hkp.2 hkp.1
    (fun p hpst => ?_) ⟨0,hsd.1,fun k _ => iff_of_false (fun hsn => ?_) (Nat.not_lt_zero k)⟩
  · rw [rank_setRank_of_ne _ _ (child_ne_root hrt ha hq)]
    exact h.begun a ha q hq
  · exact absurd ((hfre.posted p).symm.trans hpst) Bool.false_ne_true
  · obtain ⟨v,hv⟩ := isSome_iff_exists.mp ((h.ordered root _ 0).1 hsn)
    exact Bool.false_ne_true ((hfre.posted _).symm.trans (h.data root _ 0 v hv).2.2.1)

theorem Scatters.transmit (hs : s.transmit ports t root a p i = some s') :
    Scatters hpor t root sbuf s' := by
  obtain ⟨⟨hpst,hnn⟩,hs⟩ := ite_none_right_eq_some.mp hs
  obtain ⟨ha,hbeg,k,hk,rfl,-⟩ := h.of_posted hpst
  rw [dest_eq _ hrt hone hle ha hk] at hs
  obtain ⟨c,hc,rfl⟩ := map_eq_some_iff.mp hs
  obtain ⟨rfl,rfl⟩ := ite_some_none_eq_some.mp hc
  have hrea : Reads hpor t root a k (schedule ports t root a) sbuf (s.rank a).tmpbuf := by
    by_cases heq : a=root
    · subst heq
      exact h.reads k hk
    · exact reads_inner hrt ha heq hone (scheduled _ hrt ha hone hle).2 hk
        ((h.stored_of_begun hrt hone ha heq hbeg).inner (zero_lt_of_lt hk))
  have hblc : (List.range (window t a (schedule ports t root a)
      (child hpor t root a k, childSize hpor t root a k)).length).map
        (fun j => (s.rank a).tmpbuf ((window t a (schedule ports t root a)
          (child hpor t root a k, childSize hpor t root a k)).offset+j)) =
        blocks hpor t root sbuf (child hpor t root a k) := by
    rw [hrea.1,blocks,subtree_child hrt ha (single_knomial hone hpor) hk]
    exact map_congr_left fun j hj => hrea.2 j (mem_range.mp hj)
  dsimp only
  rw [hblc]
  refine ⟨h.failed,h.outside,h.fresh,fun e he hbeg => ?_,h.reads,fun a' p' i' v hv => ?_,fun a' p' i' => ?_,
    fun a' ha' q hq => ?_,fun a' ha' q hq hinc => ?_⟩
  · obtain ⟨q,hq,hsn⟩ := h.positioned e he hbeg
    refine ⟨q,hq,fun k hk => ?_⟩
    rw [apply_setMessage Transfer.sent (by rfl)]
    exact hsn k hk
  · by_cases heq : a'=a ∧ p'=first hpor t root a+k ∧ i'=0
    · obtain ⟨rfl,rfl,rfl⟩ := heq
      rw [message_setMessage] at hv
      exact ⟨ha,rfl,hpst,k,hk,rfl,(some.inj hv).symm⟩
    · rw [message_setMessage_of_ne s _ heq] at hv
      exact h.data a' p' i' v hv
  · by_cases heq : a'=a ∧ p'=first hpor t root a+k ∧ i'=0
    · obtain ⟨rfl,rfl,rfl⟩ := heq
      rw [message_setMessage]
      exact ⟨fun _ => rfl,fun _ => rfl,(h.ordered a' _ 0).2.2⟩
    · rw [message_setMessage_of_ne s _ heq]
      exact h.ordered a' p' i'
  · rw [apply_setMessage Transfer.complete (by rfl)]
    exact h.begun a' ha' q hq
  · rw [apply_setMessage Transfer.incoming (by rfl)] at hinc
    exact h.stored a' ha' q hq hinc

theorem Scatters.sent (hs : s.sent ports t root sbuf a p i = some s') : Scatters hpor t root sbuf s' := by
  obtain ⟨⟨hda,hfre⟩,rfl⟩ := ite_some_none_eq_some.mp hs
  obtain ⟨v,hv⟩ := isSome_iff_exists.mp hda
  obtain ⟨ha,rfl,hpst,-⟩ := h.data a p i v hv
  obtain ⟨-,hbeg,k,hk,rfl,q,hkq,hq,hsn⟩ := h.of_posted hpst
  -- the send that is over is the current one
  obtain rfl : k=q := by
    have hnot := mt (hsn k hk).mpr (not_eq_true _ ▸ hfre)
    omega
  obtain ⟨hcou,hdon⟩ := hq.sending hk
  have hcur := hq.curphase (.inr (zero_lt_of_lt hk))
  have hS := (scheduled hpor hrt ha hone hle).2
  have hsd := sendNext_positioned sbuf
    (y := { s.rank a with donecount := (s.rank a).donecount-1, curphase := (s.rank a).curphase+1 }) hS hk
    (by simp only [hcur]; omega) (by simp only [hcou]; rfl) hdon (h.failed a)
    (fun p => by simp only [hq.posted p]; omega) fun hne => by
      have hsto := (h.stored_of_begun hrt hone ha hne hbeg).inner (zero_lt_of_lt hk) 0
        (subtree_pos _ hrt ha)
      have hphs := hS.nphases
      rw [if_neg hne] at hphs
      rw [add_zero,blockAt_place hrt ha] at hsto
      simp only [if_pos (show 1<(schedule ports t root a).nphases by omega),hsto]
  have hkp := sendNext_tmpbuf t root a sbuf (schedule ports t root a)
    { s.rank a with donecount := (s.rank a).donecount-1, curphase := (s.rank a).curphase+1 }
  have hord := h.ordered
  refine h.advance ha rfl (fun a' p' i' => ⟨?_,?_⟩) (fun a' p' i' hne => ?_) (fun a' p' i' => ⟨fun hov => ?_,?_⟩)
    (fun b hb q hq => ?_) hsd.2 (hkp.2.trans hbeg) hkp.1 (fun p hp => ?_) ⟨k+1,hsd.1,fun j hj => ?_⟩
  · exact apply_setMessage Transfer.data (by rfl) a' p' i'
  · exact apply_setMessage Transfer.incoming (by rfl) a' p' i'
  · rw [message_setRank,message_setMessage_of_ne s _ fun heq => hne heq.1]
  · by_cases heq : a'=a ∧ p'=first hpor t root a+k ∧ i'=0
    · obtain ⟨rfl,rfl,rfl⟩ := heq
      exact hda
    · rw [message_setRank,message_setMessage_of_ne s _ heq] at hov
      exact (hord a' p' i').1 hov
  · rw [message_setRank,apply_setMessage Transfer.complete (by rfl)]
    exact (hord a' p' i').2.2
  · rw [message_setRank,apply_setMessage Transfer.complete (by rfl),h.begun b hb q hq]
    by_cases heq : child hpor t root b q=a
    · rw [heq,rank_setRank]
      exact hkp.2.symm
    · rw [rank_setRank_of_ne _ _ heq]
      rfl
  · have hpst' := (hq.posted p).mp hp
    exact (hsd.1.posted p).mpr ⟨hpst'.1,by omega,hpst'.2.2⟩
  · by_cases heq : j=k
    · subst heq
      rw [message_setRank,message_setMessage]
      exact iff_of_true rfl (lt_succ_self j)
    · rw [message_setRank,message_setMessage_of_ne s _ fun hsm => heq (by omega),hsn j hj]
      omega

theorem Scatters.of_unreceived {v : List V} {c : ℕ × ℕ} (hv : (s.message a p i).data = some v)
    (hds : dest ports t root a p i = some c) (hfre : (s.message a p i).complete=false) :
    a ∈ t ∧ i=0 ∧ ∃ k < degree hpor t root a,
      p = first hpor t root a+k ∧ c.1 = child hpor t root a k ∧ v = blocks hpor t root sbuf c.1 ∧
        c.1 ∈ t ∧ c.1≠root ∧ (s.rank c.1).begun=false := by
  obtain ⟨ha,rfl,-,k,hk,rfl,rfl⟩ := h.data a p i v hv
  rw [dest_eq _ hrt hone hle ha hk,if_pos rfl] at hds
  obtain rfl := some.inj hds
  rw [h.begun a ha k hk] at hfre
  exact ⟨ha,rfl,k,hk,rfl,rfl,rfl,child_mem hrt ha hk,child_ne_root hrt ha hk,hfre⟩

theorem Scatters.incoming (hs : s.incoming ports t root a p i = some s') :
    Scatters hpor t root sbuf s' := by
  obtain ⟨hno,hs⟩ := ite_none_left_eq_some.mp hs
  obtain ⟨⟨b,l⟩,hds,hs⟩ := bind_eq_some_iff.mp hs
  obtain ⟨v,hv,rfl⟩ := map_eq_some_iff.mp hs
  have hcom : (s.message a p i).complete=false := by
    by_contra hyes
    exact hno ((h.ordered a p i).2.2 (not_eq_false _ ▸ hyes))
  obtain ⟨ha,rfl,k,hk,rfl,hb,hblc,hmem,hne,hid⟩ := h.of_unreceived hrt hone hle hv hds hcom
  simp only at hb hblc hmem hne hid
  have hrcv := stored_receive sbuf hrt hmem hne (scheduled hpor hrt hmem hone hle).2 (h.failed b)
  rw [← hblc] at hrcv
  have hkp : ∀ x : ScatterExec V, (x.receive t (schedule ports t root b) v).begun=x.begun ∧
      (x.receive t (schedule ports t root b) v).posted=x.posted ∧
        (Fresh x → Fresh (x.receive t (schedule ports t root b) v)) := by
    intro x
    rw [ScatterExec.receive]
    split <;> exact ⟨rfl,rfl,fun hx => ⟨hx.donecount,hx.dones,hx.posted⟩⟩
  have hthis : ∀ a' ∈ t, ∀ q<degree hpor t root a', child hpor t root a' q=b →
      a'=a ∧ q=k := fun a' ha' q hq heq =>
    child_inj hrt ha' (single_knomial hone hpor) ha hq hk (heq.trans hb)
  refine ⟨fun e => ?_,fun e he => ?_,fun e he hfre => ?_,fun e he hbeg => ?_,fun q hq => ?_,
    fun a' p' i' v' hv' => ?_,fun a' p' i' => ?_,fun a' ha' q hq => ?_,fun a' ha' q hq hinc => ?_⟩
  · by_cases heq : e=b
    · rw [heq,rank_setRank]
      exact hrcv.2
    · rw [rank_setRank_of_ne _ _ heq]
      exact h.failed e
  · have heq : e≠b := by
      rintro rfl
      exact he hmem
    rw [rank_setRank_of_ne _ _ heq]
    exact h.outside e he
  · by_cases heq : e=b
    · rw [heq,rank_setRank]
      exact (hkp _).2.2 (h.fresh b hmem hid)
    · rw [rank_setRank_of_ne _ _ heq] at hfre ⊢
      exact h.fresh e he hfre
  · have heq : e≠b := by
      rintro rfl
      rw [rank_setRank,(hkp _).1,hid] at hbeg
      contradiction
    rw [rank_setRank_of_ne _ _ heq] at hbeg ⊢
    obtain ⟨q,hq,hsn⟩ := h.positioned e he hbeg
    refine ⟨q,hq,fun j hj => ?_⟩
    rw [message_setRank,apply_setMessage Transfer.sent (by rfl)]
    exact hsn j hj
  · rw [rank_setRank_of_ne _ _ hne.symm]
    exact h.reads q hq
  · rw [message_setRank,apply_setMessage Transfer.data (by rfl)] at hv'
    obtain ⟨ha',hi,hpst,hq⟩ := h.data a' p' i' v' hv'
    refine ⟨ha',hi,?_,hq⟩
    by_cases heq : a'=b
    · rw [heq,rank_setRank,(hkp _).2.1]
      exact heq ▸ hpst
    · rw [rank_setRank_of_ne _ _ heq]
      exact hpst
  · rw [message_setRank,apply_setMessage Transfer.sent (by rfl),apply_setMessage Transfer.data (by rfl),
      apply_setMessage Transfer.complete (by rfl)]
    by_cases heq : a'=a ∧ p'=first hpor t root a+k ∧ i'=0
    · obtain ⟨rfl,rfl,rfl⟩ := heq
      rw [message_setMessage]
      exact ⟨(h.ordered a' _ 0).1,fun _ => by rw [hv]; rfl,fun _ => rfl⟩
    · rw [message_setMessage_of_ne s _ heq]
      exact h.ordered a' p' i'
  · rw [message_setRank,apply_setMessage Transfer.complete (by rfl),h.begun a' ha' q hq]
    by_cases heq : child hpor t root a' q=b
    · rw [heq,rank_setRank]
      exact (hkp _).1.symm
    · rw [rank_setRank_of_ne _ _ heq]
      rfl
  · by_cases heq : child hpor t root a' q=b
    · rw [heq,rank_setRank]
      exact hrcv.1
    · rw [rank_setRank_of_ne _ _ heq]
      rw [message_setRank,message_setMessage_of_ne s _ fun hsm => heq ?_] at hinc
      · exact h.stored a' ha' q hq hinc
      · obtain ⟨rfl,hpha,-⟩ := hsm
        rw [hb,Nat.add_left_cancel hpha]

theorem Scatters.complete (hs : s.complete ports t root sbuf a p i = some s') :
    Scatters hpor t root sbuf s' := by
  obtain ⟨⟨hinc,hfre⟩,hs⟩ := ite_none_right_eq_some.mp hs
  obtain ⟨⟨b,l⟩,hds,rfl⟩ := map_eq_some_iff.mp hs
  obtain ⟨v,hv⟩ := isSome_iff_exists.mp ((h.ordered a p i).2.1 hinc)
  obtain ⟨ha,rfl,k,hk,rfl,hb,-,hmem,hne,hid⟩ := h.of_unreceived hrt hone hle hv hds hfre
  simp only at hb hmem hne hid
  subst hb
  have hemp := h.fresh _ hmem hid
  have hgoes := positioned_received hrt hmem hne (scheduled _ hrt hmem hone hle).2 hemp (h.failed _)
    (h.stored a ha k hk hinc)
  have hkp : ∀ S, ((s.rank (child hpor t root a k)).received t root (child hpor t root a k) S sbuf).begun =
      true ∧ ((s.rank (child hpor t root a k)).received t root (child hpor t root a k) S sbuf).tmpbuf =
        (s.rank (child hpor t root a k)).tmpbuf := by
    intro S
    rw [ScatterExec.received]
    split
    · have hsd := sendNext_tmpbuf t root (child hpor t root a k) sbuf S
        { s.rank (child hpor t root a k) with curphase := S.startphase+1, begun := true }
      exact ⟨hsd.2,hsd.1⟩
    · exact ⟨rfl,rfl⟩
  have hord := h.ordered
  refine h.advance hmem rfl (fun a' p' i' => ⟨?_,?_⟩) (fun a' p' i' _ => ?_)
    (fun a' p' i' => ⟨?_,fun hov => ?_⟩) (fun a' ha' q hq => ?_) hgoes.2 (hkp _).1 (hkp _).2
    (fun p hp => ?_) ⟨0,hgoes.1,fun j hj => ?_⟩
  · exact apply_setMessage Transfer.data (by rfl) a' p' i'
  · exact apply_setMessage Transfer.incoming (by rfl) a' p' i'
  · exact apply_setMessage Transfer.sent (by rfl) a' p' i'
  · rw [message_setRank,apply_setMessage Transfer.sent (by rfl)]
    exact (hord a' p' i').1
  · by_cases heq : a'=a ∧ p'=first hpor t root a+k ∧ i'=0
    · obtain ⟨rfl,rfl,rfl⟩ := heq
      exact hinc
    · rw [message_setRank,message_setMessage_of_ne s _ heq] at hov
      exact (hord a' p' i').2.2 hov
  · by_cases heq : child hpor t root a' q = child hpor t root a k
    · obtain ⟨rfl,rfl⟩ := child_inj hrt ha' (single_knomial hone hpor) ha hq hk heq
      rw [rank_setRank,message_setRank,message_setMessage,(hkp _).1]
    · rw [rank_setRank_of_ne _ _ heq,message_setRank,message_setMessage_of_ne]
      · exact h.begun a' ha' q hq
      · rintro ⟨rfl,hpha,-⟩
        exact heq (by rw [Nat.add_left_cancel hpha])
  · exact absurd ((hemp.posted p).symm.trans hp) Bool.false_ne_true
  · rw [message_setRank,apply_setMessage Transfer.sent (by rfl)]
    refine iff_of_false (fun hsn => ?_) (Nat.not_lt_zero j)
    obtain ⟨v,hv⟩ := isSome_iff_exists.mp ((hord _ _ 0).1 hsn)
    exact Bool.false_ne_true ((hemp.posted _).symm.trans (h.data _ _ 0 v hv).2.2.1)

theorem Scatters.step {e : PartnerEvent ℕ} (hok : Starts (· = root) s e)
    (hs : s.step ports t root sbuf e = some s') : Scatters hpor t root sbuf s' := by
  cases e with
  | start r =>
    obtain rfl : r=root := hok
    exact h.start hrt hone hle hs
  | transmit a p i => exact h.transmit hrt hone hle hs
  | sent a p i => exact h.sent hrt hone hle hs
  | incoming a p i => exact h.incoming hrt hone hle hs
  | complete a p i => exact h.complete hrt hone hle hs

end

end Steps

variable (hpor) in
theorem scatters_run (hrt : root ∈ t) (hone : OneChild ports t.size) (hle : ports ≤ maxConcurrent)
    (hplc : RootPlaced t root) {tmpbuf : ℕ → ℕ → V} {rbuf : ℕ → V}
    (h : Run (step ports t root sbuf) (Starts (· = root)) (new ports t root sbuf tmpbuf rbuf) s) :
    Scatters hpor t root sbuf s :=
  h.invariant (scatters_new hrt hone hle hplc tmpbuf rbuf) fun _ _ _ h hok hs => h.step hrt hone hle hok hs

def Quiet (ports : ℕ) (t : Topology) (root : ℕ) (sbuf : ℕ → V) (s : ScatterSystem V) : Prop :=
  ∀ e, Starts (· = root) s e → s.step ports t root sbuf e = none

section Quiet

variable (hrt : root ∈ t) (hone : OneChild ports t.size) (hle : ports ≤ maxConcurrent)

include hrt hone hle

section

variable (hqui : Quiet ports t root sbuf s) (h : Scatters hpor t root sbuf s) (he : e ∈ t)
include hqui h he

theorem Quiet.over (hbeg : (s.rank e).begun=true) : (s.rank e).dones=1 ∧
      ∀ k < degree hpor t root e, (s.rank (child hpor t root e k)).begun=true := by
  obtain ⟨q,hq,hsn⟩ := h.positioned e he hbeg
  have hds := fun k (hk : k<degree hpor t root e) => dest_eq hpor (i := 0) hrt hone hle he hk
  have hend : q=degree hpor t root e := by
    by_contra hne
    have hlt : q<degree hpor t root e := lt_of_le_of_ne hq.le hne
    have hpst := (hq.posted (first hpor t root e+q)).mpr ⟨Nat.le_add_right _ _,le_rfl,by omega⟩
    have htra : s.transmit ports t root e (first hpor t root e+q) 0=none := hqui (.transmit e _ 0) trivial
    rw [ScatterSystem.transmit,hds q hlt] at htra
    cases hda : (s.message e (first hpor t root e+q) 0).data with
    | none =>
      rw [if_pos ⟨hpst,by rw [hda]; rfl⟩] at htra
      contradiction
    | some v =>
      have hov : s.sent ports t root sbuf e (first hpor t root e+q) 0=none := hqui (.sent e _ 0) trivial
      have hfre : (s.message e (first hpor t root e+q) 0).sent=false :=
        not_eq_true _ ▸ fun hyes => lt_irrefl q ((hsn q hlt).mp hyes)
      rw [ScatterSystem.sent,if_pos ⟨by rw [hda]; rfl,hfre⟩] at hov
      contradiction
  refine ⟨(hq.done hend).1,fun k hk => ?_⟩
  obtain ⟨v,hv⟩ := isSome_iff_exists.mp ((h.ordered e _ 0).1 ((hsn k hk).mpr (hend ▸ hk)))
  have hinc : (s.message e (first hpor t root e+k) 0).incoming=true := by
    by_contra hno
    have hnn : s.incoming ports t root e (first hpor t root e+k) 0=none := hqui (.incoming e _ 0) trivial
    rw [ScatterSystem.incoming,if_neg hno,hds k hk,hv] at hnn
    contradiction
  rw [← h.begun e he k hk]
  by_contra hno
  have hnn : s.complete ports t root sbuf e (first hpor t root e+k) 0=none := hqui (.complete e _ 0) trivial
  rw [ScatterSystem.complete,if_pos ⟨hinc,not_eq_true _ ▸ hno⟩,hds k hk] at hnn
  contradiction

theorem Quiet.begun : (s.rank e).begun=true := by
  induction hpla : place t root e using Nat.strong_induction_on generalizing e with
  | _ c ih =>
    by_cases heq : e=root
    · subst heq
      by_contra hno
      have hsta : s.start ports t e sbuf e=none := hqui (.start e) rfl
      rw [ScatterSystem.start,if_neg hno] at hsta
      contradiction
    · obtain ⟨a,ha,q,hq,rfl,hlt⟩ := exists_parent (single_knomial hone hpor) hrt he heq
      exact (hqui.over hrt hone hle h ha (ih _ (hpla ▸ hlt) ha rfl)).2 q hq

end

end Quiet

/-- A scatter whose phases have one child each, in any order of messages and completions: each rank gets its block, the
message to a rank has the blocks of its subtree, and the done callbacks are called once. -/
theorem scatter_runs (ports : ℕ) (hpor : 0 < ports) (hle : ports ≤ maxConcurrent) (t : Topology) (root : ℕ)
    (hrt : root ∈ t) (hone : OneChild ports t.size) (hplc : RootPlaced t root) (sbuf : ℕ → V)
    (tmpbuf : ℕ → ℕ → V) (rbuf : ℕ → V) (s : ScatterSystem V)
    (hrun : Run (step ports t root sbuf) (Starts (· = root)) (new ports t root sbuf tmpbuf rbuf) s) :
    (∀ e ∈ t, (setSchedule ports t root e).isSome = true ∧ (s.rank e).failed = false ∧ (s.rank e).dones ≤ 1 ∧
      ((s.rank e).dones = 1 → (s.rank e).rbuf = sbuf (t.endpoint2Index e))) ∧
    (∀ a p i v b, (s.message a p i).data = some v → dest ports t root a p i = some b →
      ∃ l : List ℕ, l.Nodup ∧ (∀ e, e ∈ l ↔ InSubtree ports t root b.1 e) ∧
        v = l.map fun e => sbuf (t.endpoint2Index e)) ∧
    (Quiet ports t root sbuf s → ∀ e ∈ t, (s.rank e).dones = 1) := by
  have hT : 0<(knomial ports).nports := hpor
  have hs := scatters_run hT hrt hone hle hplc hrun
  refine ⟨fun e he => ⟨(scheduled hT hrt he hone hle).1,hs.failed e,?_⟩,
    fun a p i v b hv hds => ?_,fun hqui e he => ?_⟩
  · cases hbeg : (s.rank e).begun with
    | false =>
      have hdon := (hs.fresh e he hbeg).dones
      exact ⟨by omega,fun hone => by omega⟩
    | true =>
      obtain ⟨q,hq,-⟩ := hs.positioned e he hbeg
      obtain hlt | hend := lt_or_eq_of_le hq.le
      · have hdon := (hq.sending hlt).2
        exact ⟨by omega,fun hone => by omega⟩
      · exact ⟨(hq.done hend).1.le,fun _ => (hq.done hend).2⟩
  · obtain ⟨ha,rfl,-,k,hk,rfl,rfl⟩ := hs.data a p i v hv
    rw [dest_eq _ hrt hone hle ha hk,if_pos rfl] at hds
    obtain rfl := some.inj hds
    have hchi := child_mem hrt ha hk
    have hin := subtree_le hT hrt hchi
    refine ⟨(List.range (subtree hT t root (child hT t root a k))).map fun j =>
      endpointAt t root (place t root (child hT t root a k) + j),?_,fun e => ?_,?_⟩
    · refine (nodup_map_iff_inj_on nodup_range).mpr fun x hx y hy heq => ?_
      have hpls := congrArg (place t root) heq
      have hx := mem_range.mp hx
      have hy := mem_range.mp hy
      rw [place_endpointAt hrt (by omega),place_endpointAt hrt (by omega)] at hpls
      omega
    · rw [inSubtree_iff hT hrt hchi hone hle,List.mem_map]
      constructor
      · rintro ⟨j,hj,rfl⟩
        have hj := mem_range.mp hj
        rw [place_endpointAt hrt (by omega)]
        exact ⟨endpointAt_mem hrt (by omega),by omega,by omega⟩
      · rintro ⟨he,hlow,hhg⟩
        refine ⟨place t root e - place t root (child hT t root a k),mem_range.mpr (by omega),?_⟩
        rw [Nat.add_sub_cancel' hlow,endpointAt_place hrt he]
    · rw [blocks,List.map_map]
      rfl
  · exact (hqui.over hrt hone hle hs he (hqui.begun hrt hone hle hs he)).1

theorem fourRanks_nodup : [7,0,2,5].Nodup := by decide

def fourRanks : Topology := ⟨[7, 0, 2, 5], fourRanks_nodup⟩

def untouched : ℕ → ℕ → ℕ := fun _ _ => 9

/-- The child of the root that has one itself sends on before the root has sent to the other. -/
def scatterEvents : List (PartnerEvent ℕ) :=
  [.start 7, .transmit 7 0 0, .incoming 7 0 0, .sent 7 0 0, .complete 7 0 0, .transmit 2 1 0, .incoming 2 1 0,
    .complete 2 1 0, .sent 2 1 0, .transmit 7 1 0, .incoming 7 1 0, .complete 7 1 0, .sent 7 1 0]

theorem scatter_runs_four : ∃ s : ScatterSystem ℕ, (s.rank 5).dones = 1 ∧ (s.rank 5).rbuf = 13 := by
  have heve : (execEvents (fun s e => if Starts (· = 7) s e then
      s.step 1 fourRanks 7 (10 + ·) e else none) scatterEvents
      (new 1 fourRanks 7 (10 + ·) untouched fun _ => 9)).map (fun s => (s.rank 5).dones) = some 1 := by
    decide
  obtain ⟨s,hs,hdon⟩ := map_eq_some_iff.mp heve
  have hruns := scatter_runs 1 one_pos (by decide) fourRanks 7 (by decide) (.inl rfl) (fun h => by contradiction)
    (10 + ·) untouched (fun _ => 9) s (Run.refl.checked _ hs)
  exact ⟨s,hdon,(hruns.1 5 (by decide)).2.2.2 hdon⟩

def misplacedEvents : List (PartnerEvent ℕ) :=
  [.start 0, .transmit 0 0 0, .sent 0 0 0, .transmit 0 1 0, .incoming 0 1 0, .complete 0 1 0]

/-- The root is endpoint 0, but not the first one: it sends what is behind the begin of its send buffer, not what is
behind its own block. -/
theorem root_misplaced : ¬ ∀ s : ScatterSystem ℕ,
    Run (step 1 fourRanks 0 (10 + ·)) (Starts (· = 0)) (new 1 fourRanks 0 (10 + ·) untouched fun _ => 9) s →
    (s.rank 2).dones = 1 → (s.rank 2).rbuf = 10 + fourRanks.endpoint2Index 2 := by
  intro hall
  have heve : (execEvents (fun s e => if Starts (· = 0) s e then
      s.step 1 fourRanks 0 (10 + ·) e else none) misplacedEvents
      (new 1 fourRanks 0 (10 + ·) untouched fun _ => 9)).map (fun s => ((s.rank 2).dones, (s.rank 2).rbuf)) =
        some (1, 11) := by
    decide
  obtain ⟨s,hs,hend⟩ := map_eq_some_iff.mp heve
  obtain ⟨hdon,hrbuf⟩ := Prod.mk.inj hend
  have hval := hall s (Run.refl.checked _ hs) hdon
  rw [hval] at hrbuf
  contradiction

end ScatterSystem

end PAMI.Executor
