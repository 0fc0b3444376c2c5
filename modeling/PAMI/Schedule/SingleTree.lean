import PAMI.Schedule.TreePlaces

namespace PAMI.Schedule

open PAMI.Math Splitting TreeParameters Function List Option Nat

def TreeParameters.Single (T : TreeParameters) (hT : 0 < T.nports) (N : ℕ) : Prop :=
  ∀ n, 1 < n → n ≤ N → (T.splitting hT).starts n = [T.pbig n]

theorem TreeParameters.single_of_one {T : TreeParameters} (hT : 0<T.nports) {N : ℕ} (h : T.nports=1 ∨ N≤2) :
    T.Single hT N := by
  intro n hn hle
  have hlt := pbig_lt hT hn
  have hstr : (T.splitting hT).starts n =
      ((List.range T.nports).map fun i => T.pbig n+T.psmall n*i).filter (· < n) := rfl
  have hkeep (l : List ℕ) : (T.pbig n :: l).filter (· < n) = T.pbig n :: l.filter (· < n) :=
    filter_cons_of_pos (decide_eq_true hlt)
  rw [hstr]
  obtain hone | hN := h
  · rw [hone,range_one,map_singleton,mul_zero,add_zero,hkeep,filter_nil]
  · obtain rfl : n=2 := by omega
    have hbig : T.pbig 2=1 := by
      have := pbig_pos (T := T) (n := 2)
      omega
    have hsma := psmall_pos hT hn
    obtain ⟨P,hP⟩ := exists_eq_succ_of_ne_zero hT.ne'
    rw [hP,range_succ_eq_map,map_cons,mul_zero,add_zero,hkeep,List.map_map,filter_eq_nil_iff.mpr]
    · intro x hx
      obtain ⟨i,-,rfl⟩ := List.mem_map.mp hx
      have : 0<T.psmall 2*i.succ := mul_pos hsma (succ_pos i)
      simp only [comp_apply,decide_eq_true_iff]
      omega

namespace InitLoop

variable {T : TreeParameters} {hT : 0 < T.nports} {myrank nranks : ℕ} {s s' : InitLoop}

theorem addPartners_single (h0 : s.curPos=0) (h : (T.splitting hT).starts s.nodesLeft = [T.pbig s.nodesLeft]) :
    (s.addPartners T myrank nranks).partners = s.partners ++ [(myrank+T.pbig s.nodesLeft)%nranks] ∧
      (s.addPartners T myrank nranks).subsizes = s.subsizes ++ [s.nodesLeft-T.pbig s.nodesLeft] := by
  obtain ⟨-,-,-,hprt,-⟩ := addPartners_zero hT myrank nranks h0
  refine ⟨by rw [hprt,h,map_singleton],?_⟩
  have hfil : ((List.range T.nports).filter fun i => T.pbig s.nodesLeft+T.psmall s.nodesLeft*i < s.nodesLeft).map
        (fun i => T.pbig s.nodesLeft+T.psmall s.nodesLeft*i) = [T.pbig s.nodesLeft] := by
    rw [← h,starts,List.filter_map]
    rfl
  obtain ⟨i,hi,hzr⟩ := map_eq_singleton_iff.mp hfil
  rw [addPartners,if_pos h0]
  simp only [hi,map_singleton]
  have hmul : T.psmall s.nodesLeft*i=0 := by omega
  rw [hmul,if_neg]
  · rfl
  · intro hlt
    have hmem : i ∈ (List.range T.nports).filter fun i =>
        T.pbig s.nodesLeft+T.psmall s.nodesLeft*i < s.nodesLeft := by
      rw [hi]
      exact mem_singleton_self i
    have := of_decide_eq_true (mem_filter.mp hmem).2
    omega

variable (hT) in
theorem run_single {fuel : ℕ} (hc : s.curPos < s.nodesLeft) (hsin : T.Single hT s.nodesLeft)
    (hrun : s.run T myrank nranks fuel = some s') :
    s'.partners = s.partners ++ (List.range ((T.splitting hT).splits ((T.splitting hT).size s.nodesLeft s.curPos))).map
          (fun i => (myrank+T.pbig^[i+1] ((T.splitting hT).size s.nodesLeft s.curPos))%nranks) ∧
      s'.subsizes = s.subsizes ++
        (List.range ((T.splitting hT).splits ((T.splitting hT).size s.nodesLeft s.curPos))).map
          (fun i => T.pbig^[i] ((T.splitting hT).size s.nodesLeft s.curPos) -
            T.pbig^[i+1] ((T.splitting hT).size s.nodesLeft s.curPos)) := by
  induction fuel generalizing s with
  | zero =>
    obtain ⟨hle,hs⟩ := ite_none_left_eq_some.mp hrun
    obtain rfl := some.inj hs
    have hone : s.nodesLeft=1 := by omega
    have hzr : s.curPos=0 := by omega
    rw [hzr,hone,Splitting.size_zero,splits_of_le le_rfl]
    simp
  | succ fuel ih =>
    rw [run] at hrun
    split at hrun
    case isFalse h =>
      obtain rfl := some.inj hrun
      have hone : s.nodesLeft=1 := by omega
      have hzr : s.curPos=0 := by omega
      rw [hzr,hone,Splitting.size_zero,splits_of_le le_rfl]
      simp
    case isTrue h =>
      obtain h0 | h0 := Nat.eq_zero_or_pos s.curPos
      · have hbig := pbig_lt hT h
        have hsp : s.step T myrank nranks = _ := step_root hT h h0
        have hnds : (s.step T myrank nranks).nodesLeft=T.pbig s.nodesLeft := by rw [hsp]
        have hcur : (s.step T myrank nranks).curPos=0 := by rw [hsp]
        have hnx := ih (s := s.step T myrank nranks) (by rw [hnds,hcur]; exact pbig_pos)
          (fun n hn hle => hsin n hn (by rw [hnds] at hle; omega)) hrun
        obtain ⟨hadd,hsiz⟩ : (s.addPartners T myrank nranks).partners = _ ∧
            (s.addPartners T myrank nranks).subsizes = _ :=
          addPartners_single h0 (hsin s.nodesLeft h le_rfl)
        have hspl : (T.splitting hT).splits s.nodesLeft = (T.splitting hT).splits (T.pbig s.nodesLeft)+1 :=
          splits_of_lt h
        rw [hnds,hcur,Splitting.size_zero] at hnx
        rw [h0,Splitting.size_zero,hnx.1,hnx.2,hspl,hsp,range_succ_eq_map,map_cons,List.map_map,map_cons,List.map_map]
        simp only [hadd,hsiz,append_assoc,singleton_append]
        exact ⟨rfl,rfl⟩
      · have hsp : s.step T myrank nranks = _ := step_inner hT h hc h0
        have hle := blockStart_le (S := T.splitting hT) (c := s.curPos) h
        have hlt := lt_block (S := T.splitting hT) h hc
        have hsi := blockSize_lt (S := T.splitting hT) h hc
        have hnx := ih (s := s.step T myrank nranks) (by rw [hsp]; dsimp only; omega)
          (fun n hn hle' => hsin n hn (by rw [hsp] at hle'; dsimp only at hle'; omega)) hrun
        have hkp : (s.step T myrank nranks).partners=s.partners ∧
            (s.step T myrank nranks).subsizes=s.subsizes := by
          rw [hsp]
          split <;> exact ⟨rfl,rfl⟩
        rw [hkp.1,hkp.2] at hnx
        rw [hsp] at hnx
        rw [size_of_pos hc h0]
        exact hnx

end InitLoop

section Sizes

variable {T : TreeParameters} {hT : 0 < T.nports} {N n i c : ℕ}

variable (hT) in
theorem iterate_pbig (hn : 0<n) : T.pbig^[(T.splitting hT).splits n] n = 1 ∧
    ∀ i < (T.splitting hT).splits n, 1 < T.pbig^[i] n := by
  induction n using Nat.strong_induction_on with
  | _ n ih =>
    by_cases h : 1<n
    · have hspl : (T.splitting hT).splits n = (T.splitting hT).splits (T.pbig n)+1 := splits_of_lt h
      obtain ⟨hone,hlt⟩ := ih (T.pbig n) (pbig_lt hT h) pbig_pos
      rw [hspl]
      refine ⟨hone,fun i hi => ?_⟩
      cases i with
      | zero => exact h
      | succ i => exact hlt i (lt_of_succ_lt_succ hi)
    · rw [splits_of_le (not_lt.mp h)]
      exact ⟨by rw [iterate_zero,id_eq]; omega,fun i hi => absurd hi (Nat.not_lt_zero i)⟩

theorem iterate_pbig_le (hT : 0<T.nports) (hn : 0<n) (i : ℕ) : T.pbig^[i] n ≤ n ∧ 0 < T.pbig^[i] n := by
  induction i with
  | zero => exact ⟨le_rfl,hn⟩
  | succ i ih =>
    rw [iterate_succ_apply']
    refine ⟨?_,pbig_pos⟩
    by_cases h : 1<T.pbig^[i] n
    · exact (pbig_lt hT h).le.trans ih.1
    · have hone : T.pbig^[i] n=1 := by omega
      rw [hone,pbig,room]
      omega

theorem iterate_pbig_lt (hn : 0<n) (hi : i < (T.splitting hT).splits n) : T.pbig^[i+1] n < T.pbig^[i] n := by
  rw [iterate_succ_apply']
  exact pbig_lt hT ((iterate_pbig _ hn).2 i hi)

theorem block_single (h : T.Single hT N) (hn : 1<n) (hle : n≤N) (hbig : T.pbig n ≤ c) (hc : c<n) :
    (T.splitting hT).blockStart n c = T.pbig n ∧ (T.splitting hT).blockSize n c = n-T.pbig n := by
  have hsta : ∀ d, T.pbig n≤d → d<n → (T.splitting hT).blockStart n d = T.pbig n := by
    intro d hlow hhg
    obtain ⟨hbou,hsta,-⟩ := blockStart_bounds (S := T.splitting hT) hn hlow
    have hpos := (T.splitting hT).big_pos n hn
    have hsm := block_eq (S := T.splitting hT) (c := d) hn le_rfl
      (by have := lt_block (S := T.splitting hT) hn hhg; omega)
    have hmem := (mem_starts (S := T.splitting hT) (d := (T.splitting hT).blockStart n d) hn).mpr
      ⟨by omega,by omega,hsm.1⟩
    rw [h n hn hle] at hmem
    exact mem_singleton.mp hmem
  have hla : T.pbig n≤n-1 := by omega
  have hblo := lt_block (S := T.splitting hT) (c := n-1) hn (by omega)
  have hblo' := block_le (S := T.splitting hT) (c := n-1) hn (by omega)
  have hsm := block_eq (S := T.splitting hT) (c := n-1) (d := c) hn
    (by rw [hsta _ hla (by omega)]; exact hbig) (by omega)
  rw [hsta _ hla (by omega)] at hblo hblo'
  exact ⟨hsta c hbig hc,by rw [hsm.2]; omega⟩

section

variable (h : T.Single hT N) (hn : n ≤ N) (hc : c < n)
  (hi : i < (T.splitting hT).splits ((T.splitting hT).size n c))
include h hn hc hi

theorem size_arrival_child : (T.splitting hT).size n (c+T.pbig^[i+1] ((T.splitting hT).size n c)) =
        T.pbig^[i] ((T.splitting hT).size n c)-T.pbig^[i+1] ((T.splitting hT).size n c) ∧
      (T.splitting hT).arrival n (c+T.pbig^[i+1] ((T.splitting hT).size n c)) =
        (T.splitting hT).arrival n c+i+1 := by
  induction n using Nat.strong_induction_on generalizing c i with
  | _ n ih =>
    obtain rfl | h0 := Nat.eq_zero_or_pos c
    · rw [Splitting.size_zero] at hi ⊢
      rw [Nat.zero_add,arrival_zero]
      by_cases hmn : 1<n
      · have hbig := pbig_lt hT hmn
        have hpos := pbig_pos (T := T) (n := n)
        cases i with
        | zero =>
          obtain ⟨hsta,hsi⟩ := block_single h hmn hn le_rfl hbig
          rw [iterate_one,iterate_zero,id_eq,size_of_pos hbig hpos,
            arrival_of_pos hbig hpos,hsta,Nat.sub_self,Splitting.size_zero,arrival_zero,
            hsi]
          exact ⟨rfl,rfl⟩
        | succ i =>
          -- the rest of the children are those of the big subtree
          have hi : i<(T.splitting hT).splits (T.pbig n) := by
            have hspl : (T.splitting hT).splits n = (T.splitting hT).splits (T.pbig n)+1 := splits_of_lt hmn
            omega
          have hnx := ih (T.pbig n) hbig (hbig.le.trans hn) hpos (i := i)
            (by rw [Splitting.size_zero]; exact hi)
          rw [Splitting.size_zero,Nat.zero_add,arrival_zero] at hnx
          have hlt : T.pbig^[i+1] (T.pbig n) < T.pbig n :=
            (iterate_pbig_lt hpos hi).trans_le (iterate_pbig_le hT hpos i).1
          have hin : (T.splitting hT).blockStart n (T.pbig^[i+1] (T.pbig n))=0 := if_pos hlt
          have hsi : (T.splitting hT).blockSize n (T.pbig^[i+1] (T.pbig n)) = T.pbig n := if_pos hlt
          have hpos' := (iterate_pbig_le hT hpos (i+1)).2
          rw [iterate_succ_apply,size_of_pos (hlt.trans hbig) hpos',
            arrival_of_pos (hlt.trans hbig) hpos',hin,hsi,Nat.sub_zero,hnx.1,hnx.2]
          exact ⟨rfl,by omega⟩
      · rw [splits_of_le (not_lt.mp hmn)] at hi
        exact absurd hi (Nat.not_lt_zero i)
    · have hmn : 1<n := by omega
      have hsta := blockStart_le (S := T.splitting hT) (c := c) hmn
      have hlt := lt_block (S := T.splitting hT) hmn hc
      have hblo := blockSize_lt (S := T.splitting hT) hmn hc
      have hle := block_le (S := T.splitting hT) hmn hc
      rw [size_of_pos hc h0] at hi ⊢
      have hin := add_size_le (S := T.splitting hT) (n := (T.splitting hT).blockSize n c)
        (c := c-(T.splitting hT).blockStart n c) (by omega)
      have hm : 0<(T.splitting hT).size ((T.splitting hT).blockSize n c)
          (c-(T.splitting hT).blockStart n c) := by
        by_contra hzr
        rw [Nat.eq_zero_of_not_pos hzr,splits_of_le (Nat.zero_le 1)] at hi
        exact absurd hi (Nat.not_lt_zero i)
      have hchi := (iterate_pbig_lt hm hi).trans_le (iterate_pbig_le hT hm i).1
      have hsm := block_eq (S := T.splitting hT) (c := c)
        (d := c+T.pbig^[i+1] ((T.splitting hT).size ((T.splitting hT).blockSize n c)
          (c-(T.splitting hT).blockStart n c))) hmn (by omega) (by omega)
      have hpla : c+T.pbig^[i+1] ((T.splitting hT).size ((T.splitting hT).blockSize n c)
          (c-(T.splitting hT).blockStart n c))-(T.splitting hT).blockStart n c =
          c-(T.splitting hT).blockStart n c+T.pbig^[i+1] ((T.splitting hT).size ((T.splitting hT).blockSize n c)
            (c-(T.splitting hT).blockStart n c)) := by omega
      have hnx := ih _ hblo (by omega) (c := c-(T.splitting hT).blockStart n c) (by omega) hi
      rw [size_of_pos (by omega) (by omega),arrival_of_pos (c := c+_) (by omega) (by omega),
        hsm.1,hsm.2,arrival_of_pos hc h0,hpla,hnx.1,hnx.2]
      exact ⟨rfl,by omega⟩

theorem size_child : (T.splitting hT).size n (c+T.pbig^[i+1] ((T.splitting hT).size n c)) =
      T.pbig^[i] ((T.splitting hT).size n c)-T.pbig^[i+1] ((T.splitting hT).size n c) :=
  (size_arrival_child h hn hc hi).1

end

theorem children_single (h : T.Single hT N) (hn : n≤N) : (T.splitting hT).children n =
    (List.range ((T.splitting hT).splits n)).map fun i => T.pbig^[i+1] n := by
  induction n using Nat.strong_induction_on with
  | _ n ih =>
    by_cases hmn : 1<n
    · have hbig := pbig_lt hT hmn
      have hnx := ih _ hbig (hbig.le.trans hn)
      have hspl : (T.splitting hT).splits n = (T.splitting hT).splits (T.pbig n)+1 := splits_of_lt hmn
      have hchl : (T.splitting hT).children n =
          (T.splitting hT).starts n ++ (T.splitting hT).children (T.pbig n) := children_of_lt hmn
      rw [hchl,h n hmn hn,hnx,hspl,range_succ_eq_map,map_cons,List.map_map]
      rfl
    · rw [children_of_le (not_lt.mp hmn),splits_of_le (not_lt.mp hmn)]
      rfl

variable (hT) in
theorem exists_child (hn : 0<n) {j : ℕ} (h0 : 0<j) (hj : j<n) :
    ∃ i < (T.splitting hT).splits n, T.pbig^[i+1] n ≤ j ∧ j < T.pbig^[i] n := by
  induction n using Nat.strong_induction_on with
  | _ n ih =>
    have hmn : 1<n := by omega
    have hbig := pbig_lt hT hmn
    have hspl : (T.splitting hT).splits n = (T.splitting hT).splits (T.pbig n)+1 := splits_of_lt hmn
    by_cases hin : j<T.pbig n
    · obtain ⟨i,hi,hlow,hhg⟩ := ih _ hbig pbig_pos hin
      exact ⟨i+1,by omega,hlow,hhg⟩
    · exact ⟨0,by omega,not_lt.mp hin,hj⟩

variable (hT) in
theorem sum_childSize (hn : 0<n) :
    ((List.range ((T.splitting hT).splits n)).map fun i => T.pbig^[i] n-T.pbig^[i+1] n).sum+1=n := by
  obtain ⟨hone,-⟩ := iterate_pbig hT hn
  have hsum : ∀ k≤(T.splitting hT).splits n,
      ((List.range k).map fun i => T.pbig^[i] n-T.pbig^[i+1] n).sum+T.pbig^[k] n=n := by
    intro k hk
    induction k with
    | zero => simp
    | succ k ih =>
      have hlt := iterate_pbig_lt hn hk
      have := ih (le_of_succ_le hk)
      rw [range_succ,map_append,List.sum_append,map_singleton,sum_singleton]
      omega
  have hall := hsum _ le_rfl
  rwa [hone] at hall

theorem iterate_pbig_inj (hn : 0<n) {i j : ℕ} (hi : i ≤ (T.splitting hT).splits n)
    (hj : j ≤ (T.splitting hT).splits n) (heq : T.pbig^[i] n = T.pbig^[j] n) : i=j := by
  have hlt : ∀ i j, i<j → j≤(T.splitting hT).splits n → T.pbig^[j] n < T.pbig^[i] n := by
    intro i j hij hj
    induction j, hij using le_induction with
    | base => exact iterate_pbig_lt hn hj
    | succ j _ ih => exact (iterate_pbig_lt hn hj).trans (ih (le_of_succ_le hj))
  obtain hij | rfl | hji := lt_trichotomy i j
  · exact absurd heq (hlt i j hij hj).ne'
  · rfl
  · exact absurd heq (hlt j i hji hi).ne

theorem size_le_half (h : T.Single hT N) (hhalf : ∀ n, 1<n → n≤N → n ≤ 2*T.pbig n) (hn : n≤N)
    (h0 : 0 < c) (hc : c<n) : 2*(T.splitting hT).size n c ≤ n := by
  induction n using Nat.strong_induction_on generalizing c with
  | _ n ih =>
    have hmn : 1<n := by omega
    have hbig := pbig_lt hT hmn
    rw [size_of_pos hc h0]
    by_cases hin : c<T.pbig n
    · have hsta : (T.splitting hT).blockStart n c=0 := if_pos hin
      have hsi : (T.splitting hT).blockSize n c = T.pbig n := if_pos hin
      rw [hsta,hsi,Nat.sub_zero]
      exact (ih (T.pbig n) hbig (hbig.le.trans hn) h0 hin).trans hbig.le
    · obtain ⟨hsta,hsi⟩ := block_single h hmn hn (not_lt.mp hin) hc
      have hle := add_size_le (S := T.splitting hT) (n := n-T.pbig n) (c := c-T.pbig n) (by omega)
      have hhalf := hhalf n hmn hn
      rw [hsta,hsi]
      omega

variable (hT) in
theorem splits_lt (hn : 0<n) : (T.splitting hT).splits n < n := by
  induction n using Nat.strong_induction_on with
  | _ n ih =>
    by_cases hmn : 1<n
    · have hbig := pbig_lt hT hmn
      have hnx := ih _ hbig pbig_pos
      have hspl : (T.splitting hT).splits n = (T.splitting hT).splits (T.pbig n)+1 := splits_of_lt hmn
      omega
    · rw [splits_of_le (not_lt.mp hmn)]
      exact hn

theorem child_of_flat (hn : 0<n) (hflat : (T.splitting hT).splits n+1 = n)
    (hi : i < (T.splitting hT).splits n) : T.pbig^[i] n-T.pbig^[i+1] n = 1 := by
  induction i generalizing n with
  | zero =>
    have hmn : 1<n := by omega
    have hspl : (T.splitting hT).splits n = (T.splitting hT).splits (T.pbig n)+1 := splits_of_lt hmn
    have hlt := splits_lt hT (pbig_pos (T := T) (n := n))
    have hbig := pbig_lt hT hmn
    rw [iterate_one,iterate_zero,id_eq]
    omega
  | succ i ih =>
    have hmn : 1<n := by omega
    have hspl : (T.splitting hT).splits n = (T.splitting hT).splits (T.pbig n)+1 := splits_of_lt hmn
    have hlt := splits_lt hT (pbig_pos (T := T) (n := n))
    have hbig := pbig_lt hT hmn
    exact ih pbig_pos (by omega) (by omega)

end Sizes

/-- The parameters of a k-nomial tree, where `k` is one more than the number of ports. -/
def knomial (ports : ℕ) : TreeParameters := ⟨ports, 1, ports + 1⟩

/-- Each phase of a k-nomial tree has one child. -/
def OneChild (ports size : ℕ) : Prop := ports = 1 ∨ size ≤ 2

section Knomial

variable {ports N n : ℕ}

theorem knomial_pbig (h : OneChild ports N) (hpor : 0<ports) (hn : 1<n) (hle : n≤N) :
    (knomial ports).pbig n = (n+1)/2 := by
  obtain rfl | hN := h
  · simp only [pbig,room,ceiling,knomial]
    omega
  · obtain rfl : n=2 := by omega
    have hcei : ceiling (2*1) (ports+1)=1 := by rw [ceiling,Nat.div_eq_of_lt_le] <;> omega
    simp only [pbig,room,knomial,hcei]
    omega

theorem single_knomial (h : OneChild ports N) (hpor : 0<(knomial ports).nports) :
    (knomial ports).Single hpor N :=
  single_of_one hpor h

theorem splits_le_one {T : TreeParameters} {hT : 0<T.nports} (hn : n≤2) : (T.splitting hT).splits n ≤ 1 := by
  by_cases hmn : 1<n
  · have hbig := pbig_lt hT hmn
    rw [splits_of_lt hmn,splits_of_le]
    exact Nat.lt_succ_iff.mp (hbig.trans_le hn)
  · rw [splits_of_le (not_lt.mp hmn)]
    exact zero_le 1

end Knomial

namespace GenericTreeSchedule

variable {T : TreeParameters} {hT : 0 < T.nports} {topo : Topology} {root e q : ℕ} {t : GenericTreeSchedule}

/-- The size of the subtree of a rank, and the number of its children. -/
def subtree (hT : 0 < T.nports) (topo : Topology) (root e : ℕ) : ℕ :=
  (T.splitting hT).size topo.size (place topo root e)

def degree (hT : 0 < T.nports) (topo : Topology) (root e : ℕ) : ℕ := (T.splitting hT).splits (subtree hT topo root e)

def first (hT : 0 < T.nports) (topo : Topology) (root e : ℕ) : ℕ :=
  (T.splitting hT).arrival topo.size (place topo root e)

/-- What `init` finds for a rank. -/
structure Initialised (hT : 0 < T.nports) (topo : Topology) (root e : ℕ) (t : GenericTreeSchedule) : Prop where
  params : t.params = T
  topo_eq : t.topo = topo
  myrank : t.myrank = topo.endpoint2Index e
  isRoot : t.myrank = t.root ↔ place topo root e = 0
  rstartph : t.rstartph = first hT topo root e
  lstartph : t.lstartph = if place topo root e = 0 then 0 else (first hT topo root e : ℤ) - 1
  nphs : t.nphs = first hT topo root e + degree hT topo root e
  mynphs : t.mynphs = t.nphs - t.lstartph
  partners : t.partners = ((T.splitting hT).children (subtree hT topo root e)).map
    fun x => (topo.endpoint2Index e + x) % topo.size
  src : 0 < place topo root e → t.src = (topo.endpoint2Index e + topo.size -
    (T.splitting hT).parent topo.size (place topo root e)) % topo.size

variable (hT) in
theorem init_initialised (hrt : root ∈ topo) (he : e ∈ topo) :
    ∃ s, (start topo root e).run T (topo.endpoint2Index e) topo.size topo.size = some s ∧
      ∃ t, init T topo root e = some t ∧ t.subsizes=s.subsizes ∧ t.partners=s.partners ∧
        Initialised hT topo root e t := by
  have hcur := start_curPos hrt he
  have hpla := place_lt hrt he
  have hrk := index_eq_iff hrt he
  obtain ⟨s,hs,hfin⟩ := @InitLoop.run_finds T hT (topo.endpoint2Index e) topo.size (start topo root e) topo.size
    (by rw [hcur]; exact hpla) (le_succ _)
  have hpha := hfin.phase
  have hprt := hfin.partners
  have hr := hfin.rstartph rfl
  have hl := hfin.lstartph
  have hsrc := hfin.src
  have hnds : (start topo root e).nodesLeft=topo.size := rfl
  have hzr : (start topo root e).phase=0 := rfl
  have hnil : (start topo root e).partners = [] := rfl
  rw [hcur,hnds] at hpha hr hl hprt hsrc
  rw [hzr,zero_add] at hpha
  rw [hnil,nil_append] at hprt
  rw [hzr,cast_zero,zero_add] at hr hl
  have hrst : (if s.rstartph = -1 then (s.phase : ℤ) else s.rstartph)=first hT topo root e := by
    rw [hr,hpha,first]
    by_cases hmn : 1<(T.splitting hT).size topo.size (place topo root e)
    · rw [if_pos hmn,if_neg (by omega)]
    · rw [if_neg hmn,if_pos rfl,splits_of_le (not_lt.mp hmn),add_zero]
  have hlst : (if topo.endpoint2Index e = topo.endpoint2Index root then (0 : ℤ) else s.lstartph) =
      if place topo root e=0 then 0 else (first hT topo root e : ℤ)-1 := by
    simp only [hrk]
    split
    case isTrue => rfl
    case isFalse h0 => rw [hl (pos_of_ne_zero h0) rfl,first]
  refine ⟨s,hs,_,by rw [init,hs,map_some],rfl,rfl,rfl,rfl,rfl,hrk,hrst,hlst,?_,rfl,hprt,hsrc⟩
  dsimp only
  rw [hpha]
  push_cast
  rfl

variable (hT) in
theorem initialised_of_init (hrt : root ∈ topo) (he : e ∈ topo) (ht : init T topo root e = some t) :
    Initialised hT topo root e t := by
  obtain ⟨-,-,t',ht',-,-,hinit⟩ := init_initialised hT hrt he
  exact some.inj (ht'.symm.trans ht) ▸ hinit

/-- What `init` finds for a rank of a tree with one child in each phase. -/
structure FoundSingle (hT : 0 < T.nports) (topo : Topology) (root e : ℕ) (t : GenericTreeSchedule) : Prop where
  params : t.params = T
  topo_eq : t.topo = topo
  rstartph : t.rstartph = first hT topo root e
  lstartph : t.lstartph = if place topo root e = 0 then 0 else (first hT topo root e : ℤ) - 1
  nphs : t.nphs = first hT topo root e + degree hT topo root e
  mynphs : t.mynphs = t.nphs - t.lstartph
  partners : t.partners = (List.range (degree hT topo root e)).map
    fun i => (topo.endpoint2Index e + T.pbig^[i + 1] (subtree hT topo root e)) % topo.size
  subsizes : t.subsizes = (List.range (degree hT topo root e)).map
    fun i => T.pbig^[i] (subtree hT topo root e) - T.pbig^[i + 1] (subtree hT topo root e)

theorem init_single (h : T.Single hT topo.size) (hrt : root ∈ topo) (he : e ∈ topo) :
    ∃ t, init T topo root e = some t ∧ FoundSingle hT topo root e t := by
  have hcur := start_curPos hrt he
  obtain ⟨s,hs,t,ht,hsiz,hpar,hinit⟩ := init_initialised hT hrt he
  obtain ⟨hprt,hsbs⟩ := InitLoop.run_single hT (s := start topo root e)
    (by rw [hcur]; exact place_lt hrt he) h hs
  rw [hcur] at hprt hsbs
  exact ⟨t,ht,hinit.params,hinit.topo_eq,hinit.rstartph,hinit.lstartph,hinit.nphs,hinit.mynphs,
    hpar.trans hprt,hsiz.trans hsbs⟩

theorem FoundSingle.getRList (hf : FoundSingle hT topo root e t) (hone : T.nports=1 ∨ topo.size≤2)
    (hpla : place topo root e < topo.size) (hq : q < degree hT topo root e) :
    t.getRList (first hT topo root e+q : ℕ) = [topo.index2Endpoint
        ((topo.endpoint2Index e+T.pbig^[q+1] (subtree hT topo root e))%topo.size)] ∧
      t.getRLens (first hT topo root e+q : ℕ) =
        [T.pbig^[q] (subtree hT topo root e)-T.pbig^[q+1] (subtree hT topo root e)] := by
  have hsi : subtree hT topo root e≤topo.size := (Nat.le_add_left _ _).trans (add_size_le hpla)
  have hlng : t.partners.length=degree hT topo root e := by rw [hf.partners,length_map,length_range]
  have hcou : min t.params.nports (t.getRListNpes (first hT topo root e+q : ℕ)).toNat=1 := by
    rw [getRListNpes,hf.params,hf.nphs,hf.rstartph,hlng,if_pos (by omega)]
    obtain hpor | hN := hone
    · rw [hpor]
      split <;> omega
    · have hle : degree hT topo root e≤1 := splits_le_one (hsi.trans hN)
      obtain rfl : q=0 := by omega
      rw [if_neg (by omega),add_zero,Int.sub_self,Int.zero_mul,Int.sub_zero,Int.toNat_natCast]
      omega
  have hinx : (((first hT topo root e+q : ℕ)-t.rstartph)*(t.params.nports : ℤ)).toNat+0=q := by
    rw [hf.rstartph,hf.params]
    obtain hpor | hN := hone
    · rw [hpor]
      omega
    · have hle : degree hT topo root e≤1 := splits_le_one (hsi.trans hN)
      obtain rfl : q=0 := by omega
      simp
  rw [GenericTreeSchedule.getRList,getRLens,hcou,range_one,map_singleton,map_singleton,hinx,
    hf.topo_eq,hf.partners,hf.subsizes]
  simp only [getD_eq_getElem?_getD,List.getElem?_map,List.getElem?_range hq,map_some,getD_some,and_self]

variable (hT) in
theorem init_source (hrt : root ∈ topo) (he : e ∈ topo) (ht : init T topo root e = some t) :
    (t.myrank=t.root ↔ place topo root e = 0) ∧ (0 < place topo root e →
      t.src = (topo.endpoint2Index e+topo.size-(T.splitting hT).parent topo.size (place topo root e)) %
        topo.size) := by
  have hinit := initialised_of_init hT hrt he ht
  exact ⟨hinit.isRoot,hinit.src⟩

/-- A child of a rank, and the size of its subtree. -/
def child (hT : 0 < T.nports) (topo : Topology) (root e q : ℕ) : ℕ :=
  endpointAt topo root (place topo root e + T.pbig^[q + 1] (subtree hT topo root e))

def childSize (hT : 0 < T.nports) (topo : Topology) (root e q : ℕ) : ℕ :=
  T.pbig^[q] (subtree hT topo root e) - T.pbig^[q + 1] (subtree hT topo root e)

section Children

variable (hrt : root ∈ topo) (he : e ∈ topo)

include hrt he

variable (hT) in
theorem subtree_le : place topo root e+subtree hT topo root e ≤ topo.size := add_size_le (place_lt hrt he)

variable (hT) in
theorem subtree_pos : 0 < subtree hT topo root e := size_pos (place_lt hrt he)

section

variable (hq : q < degree hT topo root e)
include hq

theorem child_bounds :
    T.pbig^[q+1] (subtree hT topo root e)+childSize hT topo root e q ≤ subtree hT topo root e ∧
      0 < childSize hT topo root e q ∧ 0 < T.pbig^[q+1] (subtree hT topo root e) := by
  have hpos := subtree_pos hT hrt he
  have hlt := iterate_pbig_lt hpos hq
  have hle := (iterate_pbig_le hT hpos q).1
  rw [childSize]
  exact ⟨by omega,by omega,(iterate_pbig_le hT hpos (q+1)).2⟩

theorem place_child : place topo root (child hT topo root e q) =
    place topo root e+T.pbig^[q+1] (subtree hT topo root e) := by
  have hbnd := child_bounds hrt he hq
  have hle := subtree_le hT hrt he
  rw [child,place_endpointAt hrt (by omega)]

theorem child_mem : child hT topo root e q ∈ topo := by
  have hbnd := child_bounds hrt he hq
  have hle := subtree_le hT hrt he
  exact endpointAt_mem hrt (by omega)

theorem child_ne_root : child hT topo root e q ≠ root := by
  have hbnd := child_bounds hrt he hq
  rw [Ne,eq_root_iff hrt (child_mem hrt he hq),place_child hrt he hq]
  omega

end

theorem subtree_child (h : T.Single hT topo.size) (hq : q < degree hT topo root e) :
    subtree hT topo root (child hT topo root e q) = childSize hT topo root e q := by
  rw [subtree,place_child hrt he hq,childSize]
  exact size_child h le_rfl (place_lt hrt he) hq

theorem place_parent (h : T.Single hT topo.size) (hq : q < degree hT topo root e) :
    place topo root e+(T.splitting hT).parent topo.size (place topo root (child hT topo root e q)) =
      place topo root (child hT topo root e q) := by
  refine ((mem_children_iff (place_lt hrt he) (place_lt hrt (child_mem hrt he hq))).mp
    ⟨T.pbig^[q+1] (subtree hT topo root e),?_,(place_child hrt he hq).symm⟩).2
  have hle := subtree_le hT hrt he
  have hchl := children_single h (n := subtree hT topo root e) (by omega)
  exact hchl ▸ List.mem_map_of_mem (mem_range.mpr hq)

theorem child_inj (h : T.Single hT topo.size) {a p : ℕ} (ha : a ∈ topo) (hq : q < degree hT topo root e)
    (hp : p < degree hT topo root a) (heq : child hT topo root e q = child hT topo root a p) : e=a ∧ q=p := by
  have he' := place_parent hrt he h hq
  have ha' := place_parent hrt ha h hp
  rw [heq] at he'
  have hsm : e=a := by
    rw [← endpointAt_place hrt he,← endpointAt_place hrt ha]
    congr 1
    omega
  subst hsm
  have hpls := congrArg (place topo root) heq
  rw [place_child hrt he hq,place_child hrt he hp] at hpls
  have hinx := iterate_pbig_inj (subtree_pos hT hrt he) (i := q+1) (j := p+1) hq hp (by omega)
  exact ⟨rfl,by omega⟩

theorem exists_child_below (hlow : place topo root e < q)
    (hhg : q < place topo root e+subtree hT topo root e) : ∃ k < degree hT topo root e,
      place topo root (child hT topo root e k) ≤ q ∧
        q < place topo root (child hT topo root e k)+childSize hT topo root e k := by
  obtain ⟨k,hk,hle,hlt⟩ := exists_child hT (subtree_pos hT hrt he)
    (j := q-place topo root e) (by omega) (by omega)
  have hsc := iterate_pbig_lt (subtree_pos hT hrt he) hk
  refine ⟨k,hk,?_,?_⟩
  · rw [place_child hrt he hk]
    omega
  · rw [place_child hrt he hk,childSize]
    omega

theorem FoundSingle.getRList_child (hf : FoundSingle hT topo root e t) (hone : T.nports=1 ∨ topo.size≤2)
    (hq : q < degree hT topo root e) :
    t.getRList (first hT topo root e+q : ℕ) = [child hT topo root e q] ∧
      t.getRLens (first hT topo root e+q : ℕ) = [childSize hT topo root e q] := by
  have hbnd := child_bounds hrt he hq
  have hle := subtree_le hT hrt he
  obtain ⟨hli,hlens⟩ := hf.getRList hone (place_lt hrt he) hq
  rw [hli,hlens,partner_eq hrt he (by omega)]
  exact ⟨rfl,rfl⟩

end Children

def Below (hT : 0 < T.nports) (topo : Topology) (root : ℕ) : ℕ → ℕ → Prop :=
  Relation.ReflTransGen fun a b => ∃ q < degree hT topo root a, child hT topo root a q = b

theorem below_iff (h : T.Single hT topo.size) (hrt : root ∈ topo) {a : ℕ} (ha : a ∈ topo) (he : e ∈ topo) :
    Below hT topo root a e ↔ place topo root a ≤ place topo root e ∧
      place topo root e < place topo root a+subtree hT topo root a := by
  constructor
  · intro hbel
    suffices hall : e ∈ topo ∧ place topo root a ≤ place topo root e ∧
        place topo root e+subtree hT topo root e ≤ place topo root a+subtree hT topo root a by
      have hpos := subtree_pos hT hrt he
      omega
    clear he
    induction hbel with
    | refl => exact ⟨ha,le_rfl,le_rfl⟩
    | tail _ hsp ih =>
      obtain ⟨q,hq,rfl⟩ := hsp
      obtain ⟨hb,hlow,hhg⟩ := ih
      have hbnd := child_bounds hrt hb hq
      refine ⟨child_mem hrt hb hq,?_,?_⟩
      · rw [place_child hrt hb hq]
        omega
      · rw [subtree_child hrt hb h hq,place_child hrt hb hq]
        omega
  · rintro ⟨hlow,hhg⟩
    induction hsi : subtree hT topo root a using Nat.strong_induction_on generalizing a with
    | _ m ih =>
      obtain heq | hlt := eq_or_lt_of_le hlow
      · have hsm : a=e := by rw [← endpointAt_place hrt ha,heq,endpointAt_place hrt he]
        rw [hsm]
        exact .refl
      · obtain ⟨k,hk,hle,hlt'⟩ := exists_child_below hrt ha hlt hhg
        have hbnd := child_bounds hrt ha hk
        have hsub := subtree_child hrt ha h hk
        refine .head ⟨k,hk,rfl⟩ (ih _ ?_ (child_mem hrt ha hk) hle (by rw [hsub]; exact hlt') rfl)
        rw [hsub]
        omega

theorem exists_parent (h : T.Single hT topo.size) (hrt : root ∈ topo) (he : e ∈ topo) (hne : e≠root) :
    ∃ a ∈ topo, ∃ q < degree hT topo root a, child hT topo root a q = e ∧ place topo root a < place topo root e := by
  have hmem : ∀ b, Below hT topo root root b → b ∈ topo := by
    intro b hb
    induction hb with
    | refl => exact hrt
    | tail _ hsp ih =>
      obtain ⟨q,hq,rfl⟩ := hsp
      exact child_mem hrt ih hq
  have hbel : Below hT topo root root e := by
    rw [below_iff h hrt hrt he,subtree,place_root hrt,Splitting.size_zero,zero_add]
    exact ⟨zero_le _,place_lt hrt he⟩
  obtain heq | ⟨a,ha,q,hq,rfl⟩ := Relation.ReflTransGen.cases_tail hbel
  · exact absurd heq hne
  · have hbnd := child_bounds hrt (hmem a ha) hq
    refine ⟨a,hmem a ha,q,hq,rfl,?_⟩
    rw [place_child hrt (hmem a ha) hq]
    omega

end GenericTreeSchedule

end PAMI.Schedule
