import PAMI.Math.IntervalTree
import PAMI.Schedule.TopologyMap

namespace PAMI.Schedule

open List

/-- `CEILING` of the quotient of two integers. -/
def ceiling (a b : ℕ) : ℕ := (a + b - 1) / b

/-- The template parameters of a `GenericTreeSchedule`. -/
structure TreeParameters where
  nports : ℕ
  nu : ℕ
  de : ℕ

namespace TreeParameters

variable (T : TreeParameters)

/-- `(int)(nodes_left - _nports)`. -/
def room (nodesLeft : ℕ) : ℤ := (nodesLeft : ℤ) - T.nports

/-- The size of the next big subtree; the ceiling is that of `alpha`. -/
def pbig (nodesLeft : ℕ) : ℕ := (max 1 (min (ceiling (nodesLeft * T.nu) T.de : ℤ) (T.room nodesLeft))).toNat

def psmall (nodesLeft : ℕ) : ℕ := ceiling (nodesLeft - T.pbig nodesLeft) T.nports

end TreeParameters

/-- The variables of the first loop of `init`; `-1` is a phase that is not yet known. -/
structure InitLoop where
  nodesLeft : ℕ
  curPos : ℕ
  phase : ℕ
  partners : List ℕ
  subsizes : List ℕ
  src : ℕ
  lstartph : ℤ
  rstartph : ℤ

namespace InitLoop

variable (T : TreeParameters) (myrank nranks : ℕ)

/-- The right neighbors of the root of the current subtree. -/
def addPartners (s : InitLoop) : InitLoop :=
  let is := (List.range T.nports).filter fun i => T.pbig s.nodesLeft + T.psmall s.nodesLeft * i < s.nodesLeft
  if s.curPos = 0 then
    { s with
      rstartph := if s.rstartph = -1 then s.phase else s.rstartph
      partners := s.partners ++ is.map fun i =>
        (myrank + T.pbig s.nodesLeft + T.psmall s.nodesLeft * i) % nranks
      subsizes := s.subsizes ++ is.map fun i =>
        if s.nodesLeft < T.pbig s.nodesLeft + T.psmall s.nodesLeft * i then T.psmall s.nodesLeft
        else s.nodesLeft - T.pbig s.nodesLeft - T.psmall s.nodesLeft * i }
  else s

/-- Data comes from a rank, for the first time in this phase. -/
def receive (src : ℕ) (s : InitLoop) : InitLoop :=
  { s with src := src, lstartph := if s.lstartph = -1 then s.phase else s.lstartph }

/-- The left neighbor, if data comes from it in this phase. -/
def findSource (s : InitLoop) : InitLoop :=
  if T.pbig s.nodesLeft ≤ s.curPos then
    (List.range T.nports).foldl (fun s' i =>
      if s.curPos = T.pbig s.nodesLeft + i * T.psmall s.nodesLeft then
        s'.receive ((myrank + nranks - (T.pbig s.nodesLeft + i * T.psmall s.nodesLeft)) % nranks)
      else s') s
  else s

def descend (s : InitLoop) : InitLoop :=
  let big := T.pbig s.nodesLeft
  let small := T.psmall s.nodesLeft
  let t := (s.curPos - big) / small
  if s.curPos < big then { s with nodesLeft := big, phase := s.phase + 1 }
  else
    { s with
      nodesLeft := if s.nodesLeft < big + (t + 1) * small then s.nodesLeft - (big + t * small)
        else small
      curPos := s.curPos - (big + t * small)
      phase := s.phase + 1 }

def step (s : InitLoop) : InitLoop := ((s.addPartners T myrank nranks).findSource T myrank nranks).descend T

/-- The loop `for (phase = 0; nodes_left > 1; ++phase)`. -/
def run (T : TreeParameters) (myrank nranks : ℕ) : ℕ → InitLoop → Option InitLoop
  | 0, s => if 1 < s.nodesLeft then none else some s
  | fuel + 1, s => if 1 < s.nodesLeft then run T myrank nranks fuel (s.step T myrank nranks) else some s

end InitLoop

/-- A `GenericTreeSchedule` after `init`, as far as the union topologies read it. -/
structure GenericTreeSchedule where
  params : TreeParameters
  topo : Topology
  myrank : ℕ
  root : ℕ
  lstartph : ℤ
  rstartph : ℤ
  nphs : ℤ
  mynphs : ℤ
  src : ℕ
  partners : List ℕ
  subsizes : List ℕ

namespace GenericTreeSchedule

/-- The start of the first loop of `init` on a new object. -/
def start (topo : Topology) (root myEp : ℕ) : InitLoop where
  nodesLeft := topo.size
  curPos := (topo.endpoint2Index myEp + topo.size - topo.endpoint2Index root) % topo.size
  phase := 0
  partners := []
  subsizes := []
  src := 0
  lstartph := -1
  rstartph := -1

/-- `init`. Its second loop counts in a variable of its own, so `_nphs` is the number of phases of
the first one. -/
def init (T : TreeParameters) (topo : Topology) (root myEp : ℕ) : Option GenericTreeSchedule :=
  let myrank := topo.endpoint2Index myEp
  ((start topo root myEp).run T myrank topo.size topo.size).map fun s =>
    let lstartph := if myrank = topo.endpoint2Index root then 0 else s.lstartph
    { params := T
      topo := topo
      myrank := myrank
      root := topo.endpoint2Index root
      lstartph := lstartph
      rstartph := if s.rstartph = -1 then s.phase else s.rstartph
      nphs := s.phase
      mynphs := s.phase - lstartph
      src := s.src
      partners := s.partners
      subsizes := s.subsizes }

variable (t : GenericTreeSchedule)

def getRListNpes (phase : ℤ) : ℤ :=
  if t.rstartph ≤ phase then
    if phase < t.nphs - 1 then t.params.nports
    else t.partners.length - (phase - t.rstartph) * t.params.nports
  else 0

def getRList (phase : ℤ) : List ℕ := (List.range (min t.params.nports (t.getRListNpes phase).toNat)).map fun i =>
    t.topo.index2Endpoint
      (t.partners.getD (((phase - t.rstartph) * t.params.nports).toNat + i) 0)

/-- The lengths that `getRList` gives with the children. -/
def getRLens (phase : ℤ) : List ℕ := (List.range (min t.params.nports (t.getRListNpes phase).toNat)).map fun i =>
    t.subsizes.getD (((phase - t.rstartph) * t.params.nports).toNat + i) 0

/-- The parent of the rank, in the phase in which it is heard from. -/
def getLList (phase : ℤ) : List ℕ :=
  if t.myrank ≠ t.root ∧ phase = t.lstartph then [t.topo.index2Endpoint t.src] else []

/-- The lengths that `getLList` gives with the parent. -/
def getLLens (phase : ℤ) : List ℕ :=
  if t.myrank ≠ t.root ∧ phase = t.lstartph then [t.subsizes.sum + 1] else []

def phases : List ℤ := (List.range t.mynphs.toNat).map fun i : ℕ => t.lstartph + i

def getSrcUnionTopology : List ℕ := t.phases.flatMap t.getLList

/-- The loop of `getDstUnionTopology`; `none` is `PAMI_ENOMEM`. -/
def dstUnion (t : GenericTreeSchedule) (numEps : ℕ) : List ℤ → List ℕ → Option (List ℕ)
  | [], dst => some dst
  | phase :: phases, dst =>
    if (numEps : ℤ) < t.getRListNpes phase + dst.length then none
    else dstUnion t numEps phases (dst ++ t.getRList phase)

def getDstUnionTopology (numEps : ℕ) : Option (List ℕ) := t.dstUnion numEps t.phases []

end GenericTreeSchedule

/-- A `GenericTreeSchedule<1, NU, NU>` after `init`: the root is sent to, or sends, in a phase of its own for each other
rank. -/
structure FlatTreeSchedule where
  topo : Topology
  myrank : ℕ
  root : ℕ
  lstartph : ℕ
  nphs : ℕ
  mynphs : ℕ

namespace FlatTreeSchedule

def init (topo : Topology) (root myEp : ℕ) : FlatTreeSchedule :=
  let myrank := topo.endpoint2Index myEp
  let rootrank := topo.endpoint2Index root
  { topo := topo
    myrank := myrank
    root := rootrank
    lstartph := if myrank ≠ rootrank then (myrank + topo.size - rootrank) % topo.size - 1 else 0
    nphs := topo.size - 1
    mynphs := if myrank ≠ rootrank then 1 else topo.size - 1 }

variable (t : FlatTreeSchedule)

/-- `getRList`, with the lengths. -/
def getRList (phase : ℕ) : List (ℕ × ℕ) :=
  if t.myrank = t.root then
    (List.range (if phase < t.nphs then 1 else t.topo.size - phase)).map fun i =>
      (t.topo.index2Endpoint ((phase + i + 1 + t.myrank) % t.topo.size), 1)
  else []

/-- `getLList`, with the lengths. -/
def getLList (phase : ℕ) : List (ℕ × ℕ) :=
  if t.myrank ≠ t.root ∧ phase = t.lstartph then [(t.topo.index2Endpoint t.root, 1)] else []

end FlatTreeSchedule

open PAMI.Math

section Ceiling

variable {a b : ℕ}

theorem le_ceiling_mul (hb : 0<b) : a ≤ ceiling a b*b := by
  have h := Nat.lt_div_mul_add (a := a+b-1) hb
  rw [ceiling]
  omega

theorem ceiling_pos (ha : 0<a) (hb : 0<b) : 0 < ceiling a b := Nat.div_pos (by omega) hb

end Ceiling

namespace TreeParameters

variable {T : TreeParameters} {n : ℕ}

theorem pbig_pos : 0 < T.pbig n := by
  rw [pbig]
  omega

theorem pbig_lt (hT : 0<T.nports) (h : 1<n) : T.pbig n < n := by
  rw [pbig,room]
  omega

theorem psmall_pos (hT : 0<T.nports) (h : 1<n) : 0 < T.psmall n := by
  have hlt := pbig_lt hT h
  exact ceiling_pos (by omega) hT

/-- The subtrees of a phase as blocks of an interval. -/
def splitting (T : TreeParameters) (hT : 0 < T.nports) : Splitting where
  ports := T.nports
  big := T.pbig
  small := T.psmall
  big_pos _ _ := pbig_pos
  big_lt _ h := pbig_lt hT h
  small_pos _ h := psmall_pos hT h
  covers n h := by
    have hcov := le_ceiling_mul (a := n - T.pbig n) hT
    have hlt := pbig_lt hT h
    rw [psmall]
    omega

end TreeParameters

namespace InitLoop

variable {T : TreeParameters} (hT : 0 < T.nports) {myrank nranks : ℕ} {s : InitLoop}

theorem descend_eq :
    s.descend T = { s with
      nodesLeft := (T.splitting hT).blockSize s.nodesLeft s.curPos
      curPos := s.curPos-(T.splitting hT).blockStart s.nodesLeft s.curPos
      phase := s.phase+1 } := by
  by_cases hbig : s.curPos<T.pbig s.nodesLeft
  · have hsta : (T.splitting hT).blockStart s.nodesLeft s.curPos=0 := if_pos hbig
    have hsi : (T.splitting hT).blockSize s.nodesLeft s.curPos = T.pbig s.nodesLeft := if_pos hbig
    simp only [descend,if_pos hbig,hsta,hsi,Nat.sub_zero]
  · have hsta : (T.splitting hT).blockStart s.nodesLeft s.curPos = T.pbig s.nodesLeft +
        (s.curPos-T.pbig s.nodesLeft)/T.psmall s.nodesLeft*T.psmall s.nodesLeft := if_neg hbig
    have hsi : (T.splitting hT).blockSize s.nodesLeft s.curPos = _ := if_neg hbig
    simp only [descend,if_neg hbig,hsi,hsta,add_mul,one_mul,← add_assoc]
    rfl

theorem addPartners_eq (h : 0 < s.curPos) : s.addPartners T myrank nranks = s := if_neg h.ne'

theorem addPartners_zero (myrank nranks : ℕ) (h : s.curPos=0) :
    (s.addPartners T myrank nranks).nodesLeft=s.nodesLeft ∧
    (s.addPartners T myrank nranks).curPos=0 ∧
    (s.addPartners T myrank nranks).phase=s.phase ∧
    (s.addPartners T myrank nranks).partners = s.partners ++
      ((T.splitting hT).starts s.nodesLeft).map (fun x => (myrank+x)%nranks) ∧
    (s.addPartners T myrank nranks).src=s.src ∧
    (s.addPartners T myrank nranks).lstartph=s.lstartph ∧
    (s.addPartners T myrank nranks).rstartph =
      if s.rstartph = -1 then (s.phase : ℤ) else s.rstartph := by
  rw [addPartners,if_pos h]
  refine ⟨rfl,h,rfl,?_,rfl,rfl,rfl⟩
  rw [Splitting.starts,filter_map,map_map]
  simp only [Function.comp_def,add_assoc]
  rfl

theorem foldl_if {σ : Type*} {f : σ → σ} (hf : ∀ s, f (f s) = f s) (p : ℕ → Prop)
    [DecidablePred p] (l : List ℕ) (s : σ) :
    l.foldl (fun s i => if p i then f s else s) s = if ∃ i ∈ l, p i then f s else s := by
  induction l generalizing s with
  | nil => simp
  | cons i l ih =>
    rw [foldl_cons,ih]
    by_cases hi : p i
    · rw [if_pos hi,hf,ite_self,if_pos ⟨i,mem_cons_self,hi⟩]
    · simp [hi]

theorem receive_receive (src : ℕ) (s : InitLoop) :
    (s.receive src).receive src = s.receive src := by
  have hpha : (s.phase : ℤ) ≠ -1 := by omega
  by_cases h : s.lstartph = -1 <;> simp [receive,h,hpha]

theorem findSource_eq (h : 1 < s.nodesLeft) (hc : s.curPos < s.nodesLeft) :
    s.findSource T myrank nranks =
      if 0 < s.curPos ∧ (T.splitting hT).blockStart s.nodesLeft s.curPos = s.curPos then
        s.receive ((myrank+nranks-s.curPos)%nranks)
      else s := by
  have hmem : (∃ i ∈ List.range T.nports, s.curPos=T.pbig s.nodesLeft+i*T.psmall s.nodesLeft) ↔
        0 < s.curPos ∧ (T.splitting hT).blockStart s.nodesLeft s.curPos=s.curPos := by
    have hstr := Splitting.mem_starts (S := T.splitting hT) (d := s.curPos) h
    rw [Splitting.starts,mem_filter,mem_map,decide_eq_true_iff,and_comm,and_congr_right_iff] at hstr
    rw [← hstr hc]
    refine exists_congr fun i => and_congr_right fun _ => ?_
    rw [mul_comm i,eq_comm]
    rfl
  have hfold : (fun (s' : InitLoop) i =>
      if s.curPos=T.pbig s.nodesLeft+i*T.psmall s.nodesLeft then
        s'.receive ((myrank+nranks-(T.pbig s.nodesLeft+i*T.psmall s.nodesLeft))%nranks)
      else s') = fun s' i => if s.curPos=T.pbig s.nodesLeft+i*T.psmall s.nodesLeft then
        s'.receive ((myrank+nranks-s.curPos)%nranks) else s' := by
    funext s' i
    by_cases hi : s.curPos=T.pbig s.nodesLeft+i*T.psmall s.nodesLeft
    · rw [if_pos hi,if_pos hi,← hi]
    · rw [if_neg hi,if_neg hi]
  rw [findSource,hfold,foldl_if (receive_receive _)]
  simp only [hmem]
  by_cases hbig : T.pbig s.nodesLeft ≤ s.curPos
  · rw [if_pos hbig]
  · have hsta : (T.splitting hT).blockStart s.nodesLeft s.curPos=0 := if_pos (not_le.mp hbig)
    rw [if_neg hbig,hsta,if_neg (by omega)]

/-- What the loop finds for a place `c` of an interval of `n` places. -/
structure Finds (S : Splitting) (myrank nranks : ℕ) (s s' : InitLoop) : Prop where
  phase : s'.phase = s.phase + S.arrival s.nodesLeft s.curPos + S.splits (S.size s.nodesLeft s.curPos)
  partners : s'.partners = s.partners ++ (S.children (S.size s.nodesLeft s.curPos)).map fun x => (myrank + x) % nranks
  src : 0 < s.curPos → s'.src = (myrank + nranks - S.parent s.nodesLeft s.curPos) % nranks
  lstartph : 0 < s.curPos → s.lstartph = -1 → s'.lstartph = s.phase + S.arrival s.nodesLeft s.curPos - 1
  kept : s.curPos = 0 → s'.src = s.src ∧ s'.lstartph = s.lstartph
  rstartph : s.rstartph = -1 → s'.rstartph = if 1 < S.size s.nodesLeft s.curPos then
    (s.phase : ℤ) + S.arrival s.nodesLeft s.curPos else -1
  rstartph_kept : s.curPos = 0 → s.rstartph ≠ -1 → s'.rstartph = s.rstartph

theorem Finds.refl {S : Splitting} (hn : s.nodesLeft≤1) (hc : s.curPos < s.nodesLeft) :
    Finds S myrank nranks s s := by
  have h0 : s.curPos=0 := by omega
  have hn' : s.nodesLeft=1 := by omega
  constructor
  · rw [h0,Splitting.arrival_zero,Splitting.size_zero,Splitting.splits_of_le hn]
    rfl
  · rw [h0,Splitting.size_zero,Splitting.children_of_le hn,map_nil,append_nil]
  · omega
  · omega
  · exact fun _ => ⟨rfl,rfl⟩
  · intro hr
    rw [h0,Splitting.size_zero,if_neg (not_lt.mpr hn),hr]
  · exact fun _ _ => rfl

include hT in
theorem step_root (h : 1 < s.nodesLeft) (h0 : s.curPos=0) :
    s.step T myrank nranks = { s.addPartners T myrank nranks with
      nodesLeft := T.pbig s.nodesLeft, curPos := 0, phase := s.phase+1 } := by
  obtain ⟨hn,hcur,hpha,-⟩ := addPartners_zero hT myrank nranks h0
  have hsta : (T.splitting hT).blockStart s.nodesLeft 0=0 := if_pos TreeParameters.pbig_pos
  have hsi : (T.splitting hT).blockSize s.nodesLeft 0 = T.pbig s.nodesLeft := if_pos TreeParameters.pbig_pos
  rw [step,findSource_eq hT (by omega) (by omega),if_neg (by omega),descend_eq hT,hn,hcur,hpha,hsta,hsi]

theorem step_inner (h : 1 < s.nodesLeft) (hc : s.curPos < s.nodesLeft) (h0 : 0 < s.curPos) :
    s.step T myrank nranks =
      { (if (T.splitting hT).blockStart s.nodesLeft s.curPos = s.curPos then
          s.receive ((myrank+nranks-s.curPos)%nranks) else s) with
        nodesLeft := (T.splitting hT).blockSize s.nodesLeft s.curPos
        curPos := s.curPos-(T.splitting hT).blockStart s.nodesLeft s.curPos
        phase := s.phase+1 } := by
  rw [step,addPartners_eq h0,findSource_eq hT h hc]
  simp only [h0,true_and]
  by_cases hsta : (T.splitting hT).blockStart s.nodesLeft s.curPos=s.curPos
  · rw [if_pos hsta]
    exact descend_eq (s := s.receive _) hT
  · rw [if_neg hsta]
    exact descend_eq hT

theorem Finds.root {s' : InitLoop} (h : 1 < s.nodesLeft) (h0 : s.curPos=0)
    (hf : Finds (T.splitting hT) myrank nranks (s.step T myrank nranks) s') :
    Finds (T.splitting hT) myrank nranks s s' := by
  obtain ⟨-,-,-,hprt,hsrc,hl,hr⟩ := addPartners_zero hT myrank nranks h0
  rw [step_root hT h h0] at hf
  have hpha := hf.phase
  have hpart := hf.partners
  simp only [Splitting.arrival_zero,Splitting.size_zero] at hpha hpart
  constructor
  · rw [hpha,h0,Splitting.arrival_zero,Splitting.size_zero,Splitting.splits_of_lt h]
    change _ = _+0+((T.splitting hT).splits (T.pbig s.nodesLeft)+1)
    omega
  · rw [hpart,hprt,h0,Splitting.size_zero,Splitting.children_of_lt h,map_append,append_assoc]
    rfl
  · omega
  · omega
  · intro _
    obtain ⟨hs,hl'⟩ := hf.kept rfl
    exact ⟨hs.trans hsrc,hl'.trans hl⟩
  · intro hneg
    have hkp := hf.rstartph_kept rfl
    rw [h0,Splitting.size_zero,if_pos h,Splitting.arrival_zero]
    rw [if_pos hneg] at hr
    rw [hkp (by simp only [hr]; omega)]
    simp [hr]
  · intro _ hneg
    rw [if_neg hneg] at hr
    rw [hf.rstartph_kept rfl (by simpa only [hr] using hneg)]
    exact hr

theorem Finds.inner {s' : InitLoop} (h : 1 < s.nodesLeft) (hc : s.curPos < s.nodesLeft)
    (h0 : 0 < s.curPos)
    (hf : Finds (T.splitting hT) myrank nranks (s.step T myrank nranks) s') :
    Finds (T.splitting hT) myrank nranks s s' := by
  rw [step_inner hT h hc h0] at hf
  have harr := Splitting.arrival_of_pos (S := T.splitting hT) hc h0
  have hsi := Splitting.size_of_pos (S := T.splitting hT) hc h0
  have hpar := Splitting.parent_of_pos (S := T.splitting hT) hc h0
  by_cases hsta : (T.splitting hT).blockStart s.nodesLeft s.curPos=s.curPos
  · rw [if_pos hsta] at hf hpar
    rw [hsta,Nat.sub_self,Splitting.arrival_zero] at harr
    rw [hsta,Nat.sub_self] at hsi
    simp only [hsta,Nat.sub_self] at hf
    obtain ⟨hs,hl⟩ := hf.kept rfl
    constructor
    · rw [hf.phase,hsi,harr,Splitting.arrival_zero]
    · rw [hf.partners,hsi]
      rfl
    · intro _
      rw [hs,hpar]
      rfl
    · intro _ hneg
      rw [hl,harr]
      simp [receive,hneg]
    · omega
    · intro hneg
      rw [hf.rstartph hneg,hsi,harr,Splitting.arrival_zero]
      simp
    · omega
  · rw [if_neg hsta] at hf hpar
    have hle := Splitting.blockStart_le (S := T.splitting hT) (c := s.curPos) h
    have hpos : 0 < s.curPos-(T.splitting hT).blockStart s.nodesLeft s.curPos := by omega
    constructor
    · rw [hf.phase,hsi,harr]
      dsimp only
      omega
    · rw [hf.partners,hsi]
    · intro _
      rw [hf.src hpos,hpar]
    · intro _ hneg
      rw [hf.lstartph hpos hneg,harr]
      push_cast
      omega
    · omega
    · intro hneg
      rw [hf.rstartph hneg,hsi,harr]
      push_cast
      simp only [add_assoc,add_comm]
    · omega

theorem run_finds {fuel : ℕ} (hc : s.curPos < s.nodesLeft) (hfuel : s.nodesLeft≤fuel+1) :
    ∃ s', s.run T myrank nranks fuel = some s' ∧ Finds (T.splitting hT) myrank nranks s s' := by
  induction fuel generalizing s with
  | zero => exact ⟨s,if_neg (by omega),.refl (by omega) hc⟩
  | succ fuel ih =>
    by_cases h : 1 < s.nodesLeft
    · have hrun : s.run T myrank nranks (fuel+1) = (s.step T myrank nranks).run T myrank nranks fuel := if_pos h
      rw [hrun]
      rcases eq_zero_or_pos s.curPos with h0 | h0
      · have hbig := TreeParameters.pbig_lt hT h
        have hpos := TreeParameters.pbig_pos (T := T) (n := s.nodesLeft)
        obtain ⟨s',hs',hfin⟩ := ih (s := s.step T myrank nranks)
          (by rw [step_root hT h h0]; exact hpos) (by rw [step_root hT h h0]; dsimp only; omega)
        exact ⟨s',hs',hfin.root hT h h0⟩
      · have hle := Splitting.blockStart_le (S := T.splitting hT) (c := s.curPos) h
        have hlt := Splitting.lt_block (S := T.splitting hT) h hc
        have hsi := Splitting.blockSize_lt (S := T.splitting hT) h hc
        obtain ⟨s',hs',hfin⟩ := ih (s := s.step T myrank nranks)
          (by rw [step_inner hT h hc h0]; dsimp only; omega)
          (by rw [step_inner hT h hc h0]; dsimp only; omega)
        exact ⟨s',hs',hfin.inner hT h hc h0⟩
    · exact ⟨s,if_neg h,.refl (not_lt.mp h) hc⟩

end InitLoop

end PAMI.Schedule
