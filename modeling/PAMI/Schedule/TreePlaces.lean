import PAMI.Math.Runs
import PAMI.Schedule.GenericTree

namespace PAMI.Schedule

open PAMI.Math TopologyMap Splitting Topology List Nat

namespace TreeParameters

variable {T : TreeParameters} {n k : ℕ}

/-- The trees in use: k-nomial ones of up to four ports, and k-ary ones. -/
def Deployed (T : TreeParameters) : Prop := (0 < T.nports ∧ T.nports ≤ 4 ∧ T.nu = 1 ∧ T.de = T.nports + 1) ∨
    (0 < T.nports ∧ T.nu = 0 ∧ 0 < T.de)

theorem Deployed.nports_pos (h : T.Deployed) : 0<T.nports := by
  rcases h with ⟨h,-⟩ | ⟨h,-⟩
  · exact h
  · exact h

theorem le_starts_length (hT : 0<T.nports) (hk : k≤T.nports)
    (h : T.pbig n+T.psmall n*(k-1) < n) : k≤((T.splitting hT).starts n).length := by
  have hcou : ((T.splitting hT).starts n).length =
      (List.range T.nports).countP fun i => T.pbig n+T.psmall n*i<n := by
    rw [starts,← countP_eq_length_filter,countP_map]
    rfl
  obtain ⟨m,hm⟩ := Nat.exists_eq_add_of_le hk
  have hall : (List.range k).countP (fun i => T.pbig n+T.psmall n*i<n)=k := by
    rw [countP_eq_length.mpr,length_range]
    intro i hi
    have hi := mem_range.mp hi
    have hle : T.psmall n*i ≤ T.psmall n*(k-1) := Nat.mul_le_mul_left _ (by omega)
    exact decide_eq_true (by omega)
  rw [hcou,hm,range_add,countP_append,hall]
  exact Nat.le_add_right _ _

theorem starts_length_le (hT : 0<T.nports) :
    ((T.splitting hT).starts n).length≤T.nports := by
  refine (length_filter_le _ _).trans ?_
  rw [length_map,length_range]
  exact le_refl _

theorem knomial_starts (hT : 0<T.nports) (h4 : T.nports≤4) (hnu : T.nu=1)
    (hde : T.de=T.nports+1) (hbig : 1 < T.pbig n) :
    T.nports≤((T.splitting hT).starts n).length ∨
      (T.pbig n ≤ T.nports+1 ∧ T.nports-1≤((T.splitting hT).starts n).length) := by
  by_cases h : T.pbig n+T.psmall n*(T.nports-1)<n
  · exact .inl (le_starts_length hT (le_refl _) h)
  · right
    have hbt : T.pbig n≤T.nports+1 ∧ T.pbig n+T.psmall n*(T.nports-1-1)<n := by
      rw [psmall] at h ⊢
      rw [pbig,room,hnu,hde,ceiling] at *
      obtain hp | hp | hp | hp : T.nports=1 ∨ T.nports=2 ∨ T.nports=3 ∨ T.nports=4 := by omega
      all_goals
        rw [hp] at h hbig ⊢
        simp only [ceiling] at h ⊢
        omega
    exact ⟨hbt.1,le_starts_length hT (sub_le _ _) hbt.2⟩

theorem kary_pbig (hnu : T.nu=0) (hde : 0<T.de) : T.pbig n = 1 := by
  have hzr : ceiling (n*T.nu) T.de=0 := by rw [hnu,ceiling,mul_zero,zero_add,div_eq_of_lt (by omega)]
  rw [pbig,hzr]
  omega

theorem children_length_le (hT : 0<T.nports) (n : ℕ) :
    ((T.splitting hT).children n).length ≤ (T.splitting hT).splits n*T.nports := by
  induction n using Nat.strong_induction_on with
  | _ n ih =>
    by_cases h : 1<n
    · have hstr := starts_length_le (n := n) hT
      have hrs := ih _ ((T.splitting hT).big_lt n h)
      rw [children_of_lt h,splits_of_lt h,length_append,succ_mul]
      omega
    · rw [children_of_le (not_lt.mp h),splits_of_le (not_lt.mp h)]
      exact zero_le _

theorem le_children_length (hd : T.Deployed) (hT : 0<T.nports) (n : ℕ) :
    ((T.splitting hT).splits n-1)*T.nports≤((T.splitting hT).children n).length := by
  induction n using Nat.strong_induction_on with
  | _ n ih =>
    by_cases h : 1<n
    · by_cases hbig : 1<T.pbig n
      · obtain ⟨-,h4,hnu,hde⟩ | ⟨-,hnu,hde⟩ := hd
        · have hrs := ih _ ((T.splitting hT).big_lt n h)
          have hchl : ((T.splitting hT).children n).length=((T.splitting hT).starts n).length +
                ((T.splitting hT).children (T.pbig n)).length := by
            rw [children_of_lt h,length_append]
            rfl
          have hspl : (T.splitting hT).splits n = (T.splitting hT).splits (T.pbig (T.pbig n))+1+1 := by
            rw [splits_of_lt h]
            exact congrArg (· + 1) (splits_of_lt hbig)
          have hspl' : (T.splitting hT).splits (T.pbig n) =
              (T.splitting hT).splits (T.pbig (T.pbig n))+1 := splits_of_lt hbig
          change ((T.splitting hT).splits (T.pbig n)-1)*T.nports ≤
            ((T.splitting hT).children (T.pbig n)).length at hrs
          rw [hchl,hspl,Nat.add_sub_cancel,succ_mul]
          rw [hspl',Nat.add_sub_cancel] at hrs
          rcases knomial_starts hT h4 hnu hde hbig with hfull | ⟨hsma,hstr⟩
          · omega
          · -- only the last phase is left, in which every other rank of the subtree is a child
            have hone : T.pbig (T.pbig n)=1 := by
              rw [pbig,room]
              omega
            have hla : 1≤((T.splitting hT).starts (T.pbig n)).length :=
              le_starts_length hT (by omega) (by rw [hone]; simpa using hbig)
            rw [children_of_lt hbig,length_append,hone,splits_of_le (le_refl 1)]
            omega
        · rw [kary_pbig hnu hde] at hbig
          omega
      · have hone : (T.splitting hT).splits (T.pbig n)=0 := splits_of_le (by omega)
        have hspl : (T.splitting hT).splits n=1 := by
          rw [splits_of_lt h]
          exact congrArg (· + 1) hone
        rw [hspl]
        omega
    · rw [splits_of_le (not_lt.mp h)]
      omega

end TreeParameters

namespace GenericTreeSchedule

section Listing

variable {t : GenericTreeSchedule} {numEps m : ℕ}

theorem getD_range (l : List ℕ) {k r : ℕ} (h : k+r≤l.length) :
    (List.range r).map (fun i => l.getD (k+i) 0) = (l.drop k).take r := by
  apply ext_getElem
  · rw [length_map,length_range,length_take,length_drop]
    omega
  · intro i hi _
    rw [length_map,length_range] at hi
    rw [getElem_map,getElem_range,getElem_take,getElem_drop,getD_eq_getElem _ _ (by omega)]

theorem dstUnion_eq {phases : List ℤ} {dst r : List ℕ}
    (h : t.dstUnion numEps phases dst = some r) : r = dst ++ phases.flatMap t.getRList := by
  induction phases generalizing dst with
  | nil =>
    obtain rfl := Option.some.inj h
    rw [flatMap_nil,append_nil]
  | cons phase phases ih =>
    rw [dstUnion] at h
    split_ifs at h
    rw [ih h,flatMap_cons,append_assoc]

structure Listed (t : GenericTreeSchedule) (m : ℕ) : Prop where
  nphs : t.nphs = t.rstartph + m
  low : (m - 1) * t.params.nports ≤ t.partners.length
  high : t.partners.length ≤ m * t.params.nports

section

variable {j : ℕ} (h : Listed t m) (hj : j < m)
include h hj

theorem Listed.npes : t.getRListNpes (t.rstartph+j) =
      if j < m-1 then (t.params.nports : ℤ)
      else t.partners.length-(j*t.params.nports : ℕ) := by
  have hphs := h.nphs
  rw [getRListNpes,if_pos (by omega),add_sub_cancel_left]
  by_cases hla : j < m-1
  · rw [if_pos hla,if_pos (by omega)]
  · rw [if_neg hla,if_neg (by omega)]
    push_cast
    rfl

theorem Listed.count : 0 ≤ t.getRListNpes (t.rstartph+j) ∧
      j*t.params.nports+(t.getRListNpes (t.rstartph+j)).toNat≤t.partners.length ∧
      (t.getRListNpes (t.rstartph+j)).toNat≤t.params.nports ∧
      t.partners.take (j*t.params.nports+(t.getRListNpes (t.rstartph+j)).toNat) =
        t.partners.take ((j+1)*t.params.nports) := by
  have hlow := h.low
  have hhg := h.high
  have hmul : j*t.params.nports≤(m-1)*t.params.nports := Nat.mul_le_mul_right _ (by omega)
  rw [h.npes hj,succ_mul]
  by_cases hla : j < m-1
  · have hmul' : (j+1)*t.params.nports≤(m-1)*t.params.nports := Nat.mul_le_mul_right _ (by omega)
    rw [succ_mul] at hmul'
    rw [if_pos hla,Int.toNat_natCast]
    exact ⟨by omega,by omega,le_refl _,rfl⟩
  · obtain rfl : m=j+1 := by omega
    rw [succ_mul] at hhg
    rw [Nat.add_sub_cancel] at hlow
    have hcou : ((t.partners.length : ℤ)-(j*t.params.nports : ℕ)).toNat =
        t.partners.length-j*t.params.nports := by omega
    rw [if_neg hla,hcou]
    refine ⟨by omega,by omega,by omega,?_⟩
    rw [take_of_length_le (by omega),take_of_length_le (by omega)]

theorem Listed.getRList : (t.partners.take (j*t.params.nports)).map t.topo.index2Endpoint ++
        t.getRList (t.rstartph+j) =
      (t.partners.take ((j+1)*t.params.nports)).map t.topo.index2Endpoint := by
  obtain ⟨-,hle,hpor,htake⟩ := h.count hj
  have hinx : ((t.rstartph+j-t.rstartph)*t.params.nports).toNat=j*t.params.nports := by
    rw [add_sub_cancel_left,← cast_mul,Int.toNat_natCast]
  have hli : t.getRList (t.rstartph+j) = ((List.range (t.getRListNpes (t.rstartph+j)).toNat).map
        fun i => t.partners.getD (j*t.params.nports+i) 0).map t.topo.index2Endpoint := by
    rw [GenericTreeSchedule.getRList,min_eq_right hpor,hinx,List.map_map]
    rfl
  rw [hli,getD_range _ hle,← map_append,← take_add,htake]

end

theorem Listed.dstUnion (h : Listed t m) (hnum : t.partners.length≤numEps) {k j : ℕ}
    (hk : j+k=m) :
    t.dstUnion numEps ((List.range k).map fun i : ℕ => t.rstartph+j+i)
        ((t.partners.take (j*t.params.nports)).map t.topo.index2Endpoint) =
      some (t.partners.map t.topo.index2Endpoint) := by
  induction k generalizing j with
  | zero =>
    obtain rfl : j=m := hk
    rw [take_of_length_le h.high]
    rfl
  | succ k ih =>
    have hj : j < m := by omega
    obtain ⟨hpos,hle,-⟩ := h.count hj
    have hpha : (List.range (k+1)).map (fun i : ℕ => t.rstartph+j+i) =
        (t.rstartph+j) :: (List.range k).map (fun i : ℕ => t.rstartph+(j+1 : ℕ)+i) := by
      rw [range_succ_eq_map,map_cons,List.map_map]
      congr 1
      · simp
      · apply map_congr_left
        intro i _
        simp only [Function.comp_apply]
        push_cast
        omega
    rw [hpha,GenericTreeSchedule.dstUnion,if_neg,h.getRList hj]
    · exact ih (by omega)
    · rw [length_map,length_take]
      omega

end Listing

section Places

variable {topo : Topology} {root e x : ℕ}

def place (topo : Topology) (root e : ℕ) : ℕ := (rooted topo (topo.endpoint2Index root) e).getMyRank

/-- The endpoint of a rank relative to the root. -/
def endpointAt (topo : Topology) (root d : ℕ) : ℕ := (rooted topo (topo.endpoint2Index root) root).getGlobalRank d

variable (hrt : root ∈ topo)

include hrt

theorem place_lt (he : e ∈ topo) : place topo root e < topo.size := getMyRank_lt (endpoint2Index_lt hrt) he

theorem endpointAt_place (he : e ∈ topo) : endpointAt topo root (place topo root e) = e :=
  getGlobalRank_getMyRank (endpoint2Index_lt hrt) he

theorem endpointAt_mem (hx : x<topo.size) : endpointAt topo root x ∈ topo :=
  getGlobalRank_mem (endpoint2Index_lt hrt) hx

theorem place_endpointAt (hx : x<topo.size) : place topo root (endpointAt topo root x) = x :=
  getMyRank_getGlobalRank (endpoint2Index_lt hrt) hx

theorem start_curPos (he : e ∈ topo) : (start topo root e).curPos = place topo root e := by
  have hr := endpoint2Index_lt hrt
  have hi := endpoint2Index_lt he
  rw [place,getMyRank_rooted]
  change (_+_-_)%_ = _
  split_ifs with h
  · have hsum : topo.endpoint2Index e+topo.size-topo.endpoint2Index root =
        topo.endpoint2Index e-topo.endpoint2Index root+topo.size := by omega
    rw [hsum,add_mod_right,mod_eq_of_lt (by omega)]
  · rw [mod_eq_of_lt (by omega)]

theorem partner_eq (he : e ∈ topo) (hx : place topo root e+x < topo.size) :
    topo.index2Endpoint ((topo.endpoint2Index e+x)%topo.size) = endpointAt topo root (place topo root e+x) := by
  have hr := endpoint2Index_lt hrt
  have hi := endpoint2Index_lt he
  rw [place,getMyRank_rooted] at *
  rw [endpointAt,getGlobalRank_rooted]
  congr 1
  rcases lt_or_ge (topo.endpoint2Index e+x) topo.size with hlt | hge
  · rw [mod_eq_of_lt hlt]
    split_ifs at hx ⊢ <;> omega
  · rw [mod_eq_sub_mod hge,mod_eq_of_lt (by split_ifs at hx <;> omega)]
    split_ifs at hx ⊢ <;> omega

theorem source_eq (he : e ∈ topo) (h0 : 0<x) (hx : x ≤ place topo root e) :
    topo.index2Endpoint ((topo.endpoint2Index e+topo.size-x)%topo.size) =
      endpointAt topo root (place topo root e-x) := by
  have hr := endpoint2Index_lt hrt
  have hi := endpoint2Index_lt he
  have hpla := place_lt hrt he
  rw [place,getMyRank_rooted] at *
  rw [endpointAt,getGlobalRank_rooted]
  congr 1
  rcases lt_or_ge (topo.endpoint2Index e) x with hlt | hge
  · rw [mod_eq_of_lt (by omega)]
    split_ifs at hx ⊢ <;> omega
  · have hsum : topo.endpoint2Index e+topo.size-x = topo.endpoint2Index e-x+topo.size := by omega
    rw [hsum,add_mod_right,mod_eq_of_lt (by omega)]
    split_ifs at hx ⊢ <;> omega

theorem index_eq_iff (he : e ∈ topo) :
    topo.endpoint2Index e = topo.endpoint2Index root ↔ place topo root e = 0 := by
  have hr := endpoint2Index_lt hrt
  have hi := endpoint2Index_lt he
  rw [place,getMyRank_rooted]
  split_ifs <;> omega

theorem place_root : place topo root root = 0 := (index_eq_iff hrt hrt).mp rfl

theorem eq_root_iff (he : e ∈ topo) : e=root ↔ place topo root e = 0 := by
  constructor
  · rintro rfl
    exact place_root hrt
  · intro h
    rw [← endpointAt_place hrt he,h,← place_root hrt,endpointAt_place hrt hrt]

end Places

end GenericTreeSchedule

end PAMI.Schedule
