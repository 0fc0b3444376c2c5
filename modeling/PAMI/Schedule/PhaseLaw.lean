import Mathlib.Data.Set.Card
import PAMI.Schedule.TreeReinit

namespace PAMI.Schedule

open PAMI.Math TreeParameters Splitting List Option Nat Finset Set

section Depth

variable {T : TreeParameters} {hT : 0 < T.nports} {n N c : ℕ}

/-- The phases until the loop of `init` ends for a place: those until its subtree is its own, and those of its children. -/
def depth (hT : 0 < T.nports) (n c : ℕ) : ℕ :=
  (T.splitting hT).arrival n c + (T.splitting hT).splits ((T.splitting hT).size n c)

theorem depth_zero : depth hT n 0 = (T.splitting hT).splits n := by
  rw [depth,arrival_zero,Splitting.size_zero,zero_add]

theorem depth_block (hn : 1<n) (hc : c<n) : depth hT n c =
    depth hT ((T.splitting hT).blockSize n c) (c-(T.splitting hT).blockStart n c)+1 := by
  obtain rfl | h0 := Nat.eq_zero_or_pos c
  · have hsta : (T.splitting hT).blockStart n 0=0 := if_pos pbig_pos
    have hsi : (T.splitting hT).blockSize n 0 = T.pbig n := if_pos pbig_pos
    rw [hsta,hsi,depth_zero,depth_zero,splits_of_lt hn]
    rfl
  · rw [depth,arrival_of_pos hc h0,size_of_pos hc h0,depth,Nat.add_right_comm]

theorem depth_of_le (hn : n≤1) (hc : c<n) : depth hT n c = 0 := by
  obtain rfl : c=0 := by omega
  rw [depth_zero,splits_of_le hn]

theorem depth_eq_iff (h : T.Single hT N) (hhalf : ∀ m, 1 < m → m≤N → T.pbig m = (m+1)/2) (h0 : 0<n) (hle : n≤N) :
    (∀ c<n, depth hT n c = (T.splitting hT).splits n) ↔ n = 2^(T.splitting hT).splits n := by
  induction n using Nat.strong_induction_on with
  | _ n ih =>
    by_cases hn : 1<n
    · have hbig := hhalf n hn hle
      have hlt := pbig_lt hT hn
      have hpos := pbig_pos (T := T) (n := n)
      have hspl : (T.splitting hT).splits n = (T.splitting hT).splits (T.pbig n)+1 := splits_of_lt hn
      have hfir : ∀ c<T.pbig n, depth hT n c = depth hT (T.pbig n) c+1 := by
        intro c hc
        have hsta : (T.splitting hT).blockStart n c=0 := if_pos hc
        have hsi : (T.splitting hT).blockSize n c = T.pbig n := if_pos hc
        rw [depth_block hn (hc.trans hlt),hsta,hsi,Nat.sub_zero]
      have hsec : ∀ c<n-T.pbig n, depth hT n (T.pbig n+c) = depth hT (n-T.pbig n) c+1 := by
        intro c hc
        obtain ⟨hsta,hsi⟩ := block_single h hn hle (Nat.le_add_right (T.pbig n) c) (by omega)
        rw [depth_block hn (by omega),hsta,hsi,Nat.add_sub_cancel_left]
      have ihbig := ih (T.pbig n) hlt hpos (by omega)
      have ihrest := ih (n-T.pbig n) (by omega) (by omega) (by omega)
      constructor
      · intro hall
        have hpow := ihbig.mp fun c hc => by
          have := hfir c hc
          have := hall c (hc.trans hlt)
          omega
        have hrs : ∀ c<n-T.pbig n, depth hT (n-T.pbig n) c = (T.splitting hT).splits (T.pbig n) := by
          intro c hc
          have := hsec c hc
          have := hall (T.pbig n+c) (by omega)
          omega
        have hsm : (T.splitting hT).splits (n-T.pbig n) = (T.splitting hT).splits (T.pbig n) := by
          rw [← depth_zero]
          exact hrs 0 (by omega)
        have hpow' := ihrest.mp fun c hc => (hrs c hc).trans hsm.symm
        rw [hsm] at hpow'
        rw [hspl,pow_succ]
        omega
      · intro hpow
        rw [hspl,pow_succ] at hpow
        have hbgp : T.pbig n = 2^(T.splitting hT).splits (T.pbig n) := by omega
        have hsm : n-T.pbig n = T.pbig n := by omega
        intro c hc
        by_cases hin : c<T.pbig n
        · rw [hfir c hin,hspl,ihbig.mpr hbgp c hin]
        · obtain ⟨k,rfl⟩ := Nat.exists_eq_add_of_le (not_lt.mp hin)
          rw [hsec k (by omega),hspl,hsm,ihbig.mpr hbgp k (by omega)]
    · obtain rfl : n=1 := by omega
      rw [splits_of_le le_rfl]
      exact iff_of_true (fun c hc => depth_of_le le_rfl hc) rfl

theorem splits_two_pow (hhalf : ∀ m, 1 < m → m≤N → T.pbig m = (m+1)/2) {d : ℕ} (hle : 2^d≤N) :
    (T.splitting hT).splits (2^d) = d := by
  induction d with
  | zero => exact splits_of_le le_rfl
  | succ d ih =>
    have hpow := pow_succ 2 d
    have hpos := Nat.two_pow_pos d
    have hmn : 1<2^(d+1) := by omega
    have hbig : (T.splitting hT).big (2^(d+1))=2^d := by
      refine (hhalf _ hmn hle).trans ?_
      omega
    rw [splits_of_lt hmn,hbig,ih (by omega)]

end Depth

namespace GenericTreeSchedule

def HearsFrom (topo : Topology) (S : ℕ → GenericTreeSchedule) (a b : ℕ) : Prop :=
  b ∈ topo ∧ ∃ p : ℕ, a ∈ (S b).getLList p

/-- The ranks that hear from a rank, from those, and so on, and the rank itself. -/
def subtreeRanks (topo : Topology) (S : ℕ → GenericTreeSchedule) (a : ℕ) : Set ℕ :=
  {e | e ∈ topo ∧ Relation.ReflTransGen (HearsFrom topo S) a e}

/-- What the schedules of the ranks are to agree on in each phase. -/
structure PhaseLaw (topo : Topology) (S : ℕ → GenericTreeSchedule) : Prop where
  matched : ∀ a ∈ topo, ∀ b ∈ topo, ∀ p : ℕ, p < (S a).nphs → p < (S b).nphs →
    (b ∈ (S a).getRList p ↔ a ∈ (S b).getLList p)
  childSize : ∀ a ∈ topo, ∀ p : ℕ, p < (S a).nphs → ∀ x ∈ ((S a).getRList p).zip ((S a).getRLens p),
    x.2 = (subtreeRanks topo S x.1).ncard
  ownSize : ∀ a ∈ topo, ((List.range (S a).nphs.toNat).map fun p : ℕ => ((S a).getRLens p).sum).sum + 1 =
    (subtreeRanks topo S a).ncard
  nphases : ∀ a ∈ topo, ∀ b ∈ topo, (S a).nphs = (S b).nphs

section Places

variable {topo : Topology} {root x n : ℕ} (hrt : root ∈ topo)

include hrt

theorem places_eq (h : x+n≤topo.size) :
    {e | e ∈ topo ∧ x ≤ place topo root e ∧ place topo root e < x+n} =
      ↑((Finset.range n).image fun k => endpointAt topo root (x+k)) := by
  ext e
  simp only [mem_ofPred_eq,coe_image,Set.mem_image,coe_range,Set.mem_Iio]
  constructor
  · rintro ⟨he,hlow,hhg⟩
    obtain ⟨k,hk⟩ := Nat.exists_eq_add_of_le hlow
    exact ⟨k,by omega,by rw [← hk,endpointAt_place hrt he]⟩
  · rintro ⟨k,hk,rfl⟩
    rw [place_endpointAt hrt (by omega)]
    exact ⟨endpointAt_mem hrt (by omega),by omega,by omega⟩

theorem ncard_places (h : x+n≤topo.size) :
    {e | e ∈ topo ∧ x ≤ place topo root e ∧ place topo root e < x+n}.ncard=n := by
  rw [places_eq hrt h,ncard_coe_finset,Finset.card_image_of_injOn,card_range]
  intro i hi j hj heq
  have hi := Finset.mem_range.mp hi
  have hj := Finset.mem_range.mp hj
  have hpla := congrArg (place topo root) heq
  simp only [place_endpointAt hrt (show x+i<topo.size by omega),
    place_endpointAt hrt (show x+j<topo.size by omega)] at hpla
  omega

theorem finite_places (h : x+n≤topo.size) :
    {e | e ∈ topo ∧ x ≤ place topo root e ∧ place topo root e < x+n}.Finite := by
  rw [places_eq hrt h]
  exact Finset.finite_toSet _

end Places

section Heard

variable {T : TreeParameters} {hT : 0 < T.nports} {topo : Topology} {root a b : ℕ} {S : ℕ → GenericTreeSchedule}

theorem init_params {t : GenericTreeSchedule} (ht : init T topo root a = some t) : t.params=T ∧ t.topo=topo := by
  obtain ⟨s,-,rfl⟩ := map_eq_some_iff.mp ht
  exact ⟨rfl,rfl⟩

variable (hT) (hrt : root ∈ topo) (hS : ∀ e ∈ topo, init T topo root e = some (S e))

include hrt hS

theorem mem_getLList_iff (hb : b ∈ topo) {p : ℤ} : a ∈ (S b).getLList p ↔ a ∈ topo ∧ 0 < place topo root b ∧
    place topo root a+(T.splitting hT).parent topo.size (place topo root b) = place topo root b ∧
      p=(S b).lstartph := by
  obtain ⟨hisr,hsrc⟩ := init_source hT hrt hb (hS b hb)
  have htopo := (init_params (hS b hb)).2
  by_cases h0 : place topo root b=0
  · rw [getLList,if_neg fun h => h.1 (hisr.mpr h0)]
    exact iff_of_false not_mem_nil fun h => h.2.1.ne' h0
  · have hpos := pos_of_ne_zero h0
    obtain ⟨hpar,hle⟩ := parent_bounds (S := T.splitting hT) (place_lt hrt hb) hpos
    have hlt := place_lt hrt hb
    rw [getLList,htopo,hsrc hpos,source_eq hrt hb hpar hle]
    by_cases hp : p=(S b).lstartph
    · rw [if_pos ⟨mt hisr.mp h0,hp⟩,List.mem_singleton]
      constructor
      · rintro rfl
        rw [place_endpointAt hrt (by omega)]
        exact ⟨endpointAt_mem hrt (by omega),hpos,by omega,hp⟩
      · rintro ⟨ha,-,hsum,-⟩
        rw [← endpointAt_place hrt ha]
        congr 1
        omega
    · rw [if_neg fun h => hp h.2]
      exact iff_of_false not_mem_nil fun h => hp h.2.2.2

theorem HearsFrom.place_lt (h : HearsFrom topo S a b) : a ∈ topo ∧ place topo root a < place topo root b ∧
    place topo root a+(T.splitting hT).parent topo.size (place topo root b) = place topo root b := by
  obtain ⟨hb,p,hp⟩ := h
  obtain ⟨ha,hpos,hsum,-⟩ := (mem_getLList_iff hT hrt hS hb).mp hp
  have := (parent_bounds (S := T.splitting hT) (GenericTreeSchedule.place_lt hrt hb) hpos).1
  exact ⟨ha,by omega,hsum⟩

end Heard

section Single

variable {T : TreeParameters} {hT : 0 < T.nports} {topo : Topology} {root a b : ℕ} {S : ℕ → GenericTreeSchedule}

theorem first_child (h : T.Single hT topo.size) (hrt : root ∈ topo) (ha : a ∈ topo) {q : ℕ}
    (hq : q < degree hT topo root a) : first hT topo root (child hT topo root a q) = first hT topo root a+q+1 := by
  rw [first,place_child hrt ha hq]
  exact (size_arrival_child h le_rfl (place_lt hrt ha) hq).2

theorem FoundSingle.getRList_before {t : GenericTreeSchedule} (hf : FoundSingle hT topo root a t) {p : ℕ}
    (hp : p < first hT topo root a) : t.getRList p = [] ∧ t.getRLens p = [] := by
  have hnn : t.getRListNpes p=0 := by rw [getRListNpes,hf.rstartph,if_neg (by omega)]
  rw [GenericTreeSchedule.getRList,getRLens,hnn,Int.toNat_zero,Nat.min_zero,List.range_zero,map_nil,map_nil]
  exact ⟨rfl,rfl⟩

variable (hT) (hone : T.nports = 1 ∨ topo.size ≤ 2) (hrt : root ∈ topo)
  (hS : ∀ e ∈ topo, init T topo root e = some (S e))

include hone hrt hS

section

variable (ha : a ∈ topo)
include ha

theorem foundSingle_of_init : FoundSingle hT topo root a (S a) := by
  obtain ⟨t,ht,hf⟩ := init_single (single_of_one hT hone) hrt ha
  obtain rfl := some.inj ((hS a ha).symm.trans ht)
  exact hf

theorem getRList_cases {p : ℕ} (hp : p<(S a).nphs) :
    (p < first hT topo root a ∧ (S a).getRList p = [] ∧ (S a).getRLens p = []) ∨
      ∃ q < degree hT topo root a, p = first hT topo root a+q ∧
        (S a).getRList p = [child hT topo root a q] ∧ (S a).getRLens p = [childSize hT topo root a q] := by
  have hf := foundSingle_of_init hT hone hrt hS ha
  obtain hlt | hle := lt_or_ge p (first hT topo root a)
  · exact .inl ⟨hlt,hf.getRList_before hlt⟩
  · obtain ⟨q,rfl⟩ := Nat.exists_eq_add_of_le hle
    have hq : q<degree hT topo root a := by
      rw [hf.nphs] at hp
      omega
    exact .inr ⟨q,hq,rfl,hf.getRList_child hrt ha hone hq⟩

omit ha in
theorem getLList_iff (hb : b ∈ topo) {p : ℕ} : a ∈ (S b).getLList p ↔
    a ∈ topo ∧ ∃ q < degree hT topo root a, p = first hT topo root a+q ∧ child hT topo root a q = b := by
  have hsin := single_of_one hT hone
  have hf := foundSingle_of_init hT hone hrt hS hb
  rw [mem_getLList_iff hT hrt hS hb,hf.lstartph]
  constructor
  · rintro ⟨ha,hpos,hsum,hp⟩
    obtain ⟨c,hc,q,hq,rfl,-⟩ := exists_parent hsin hrt hb fun hrt' => by
      rw [hrt',place_root hrt] at hpos
      omega
    have hpar := place_parent hrt hc hsin hq
    obtain rfl : c=a := by
      rw [← endpointAt_place hrt hc,← endpointAt_place hrt ha]
      congr 1
      omega
    rw [if_neg hpos.ne',first_child hsin hrt hc hq] at hp
    exact ⟨ha,q,hq,by omega,rfl⟩
  · rintro ⟨ha,q,hq,rfl,rfl⟩
    have hbnd := child_bounds hrt ha hq
    have hpla := place_child hrt ha hq
    have hpos : 0<place topo root (child hT topo root a q) := by omega
    rw [if_neg hpos.ne',first_child hsin hrt ha hq]
    exact ⟨ha,hpos,place_parent hrt ha hsin hq,by push_cast; omega⟩

theorem hearsFrom_iff : HearsFrom topo S a b ↔ ∃ q < degree hT topo root a, child hT topo root a q = b := by
  constructor
  · rintro ⟨hb,p,hp⟩
    obtain ⟨-,q,hq,-,heq⟩ := (getLList_iff hT hone hrt hS hb).mp hp
    exact ⟨q,hq,heq⟩
  · rintro ⟨q,hq,rfl⟩
    have hb := child_mem hrt ha hq
    exact ⟨hb,_,(getLList_iff hT hone hrt hS hb).mpr ⟨ha,q,hq,rfl,rfl⟩⟩

theorem subtreeRanks_eq : subtreeRanks topo S a = {e | e ∈ topo ∧
    place topo root a ≤ place topo root e ∧ place topo root e < place topo root a+subtree hT topo root a} := by
  have hsin := single_of_one hT hone
  ext e
  refine and_congr_right fun he => ?_
  rw [← below_iff hsin hrt ha he]
  constructor
  · intro hhea
    suffices hall : e ∈ topo ∧ Below hT topo root a e from hall.2
    clear he
    induction hhea with
    | refl => exact ⟨ha,.refl⟩
    | tail _ hsp ih => exact ⟨hsp.1,ih.2.tail ((hearsFrom_iff hT hone hrt hS ih.1).mp hsp)⟩
  · intro hbel
    suffices hall : e ∈ topo ∧ Relation.ReflTransGen (HearsFrom topo S) a e from hall.2
    clear he
    induction hbel with
    | refl => exact ⟨ha,.refl⟩
    | tail _ hsp ih =>
      have hhea := (hearsFrom_iff hT hone hrt hS ih.1).mpr hsp
      exact ⟨hhea.1,ih.2.tail hhea⟩

theorem ncard_subtreeRanks : (subtreeRanks topo S a).ncard = subtree hT topo root a := by
  rw [subtreeRanks_eq hT hone hrt hS ha]
  exact ncard_places hrt (subtree_le hT hrt ha)

theorem sum_getRLens : ((List.range (S a).nphs.toNat).map fun p : ℕ => ((S a).getRLens p).sum).sum+1 =
    subtree hT topo root a := by
  have hf := foundSingle_of_init hT hone hrt hS ha
  have hphs : (S a).nphs.toNat=first hT topo root a+degree hT topo root a := by
    rw [hf.nphs]
    omega
  have hbef : ((List.range (first hT topo root a)).map fun p : ℕ => ((S a).getRLens p).sum).sum=0 := by
    apply List.sum_eq_zero
    intro x hx
    obtain ⟨p,hp,rfl⟩ := List.mem_map.mp hx
    rw [(hf.getRList_before (List.mem_range.mp hp)).2,sum_nil]
  have hlens : (List.range (degree hT topo root a)).map (fun q => ((S a).getRLens (first hT topo root a+q : ℕ)).sum) =
      (List.range (degree hT topo root a)).map fun q => childSize hT topo root a q := by
    refine map_congr_left fun q hq => ?_
    rw [(hf.getRList_child hrt ha hone (List.mem_range.mp hq)).2,List.sum_singleton]
  rw [hphs,List.range_add,map_append,List.map_map,List.sum_append,hbef,zero_add]
  refine Eq.trans (congrArg (fun l : List ℕ => l.sum+1) hlens) ?_
  exact sum_childSize hT (subtree_pos hT hrt ha)

end

theorem phaseLaw_of_one (hdpt : ∀ c<topo.size, depth hT topo.size c = (T.splitting hT).splits topo.size) :
    PhaseLaw topo S where
  matched a ha b hb p hpa hpb := by
    have hsin := single_of_one hT hone
    rw [getLList_iff hT hone hrt hS hb]
    obtain ⟨hlt,hli,-⟩ | ⟨q,hq,rfl,hli,-⟩ := getRList_cases hT hone hrt hS ha hpa
    · rw [hli]
      refine iff_of_false not_mem_nil ?_
      rintro ⟨-,q,-,rfl,-⟩
      omega
    · rw [hli,List.mem_singleton]
      constructor
      · rintro rfl
        exact ⟨ha,q,hq,rfl,rfl⟩
      · rintro ⟨-,q',hq',heq,rfl⟩
        obtain rfl : q=q' := by omega
        rfl
  childSize a ha p hp x hx := by
    have hsin := single_of_one hT hone
    obtain ⟨-,hli,-⟩ | ⟨q,hq,rfl,hli,hlens⟩ := getRList_cases hT hone hrt hS ha hp
    · rw [hli,zip_nil_left] at hx
      exact absurd hx not_mem_nil
    · rw [hli,hlens,zip_cons_cons,zip_nil_left,List.mem_singleton] at hx
      subst hx
      rw [ncard_subtreeRanks hT hone hrt hS (child_mem hrt ha hq),subtree_child hrt ha hsin hq]
  ownSize a ha := by rw [sum_getRLens hT hone hrt hS ha,ncard_subtreeRanks hT hone hrt hS ha]
  nphases a ha b hb := by
    have hfa := (foundSingle_of_init hT hone hrt hS ha).nphs
    have hfb := (foundSingle_of_init hT hone hrt hS hb).nphs
    have hda := hdpt _ (place_lt hrt ha)
    have hdb := hdpt _ (place_lt hrt hb)
    rw [depth] at hda hdb
    rw [first,degree,subtree] at hfa hfb
    omega

end Single

section Many

variable {T : TreeParameters} {hT : 0 < T.nports} {topo : Topology} {root : ℕ} {S : ℕ → GenericTreeSchedule}

theorem subsizes_step {myrank nranks : ℕ} (s : InitLoop) : s.subsizes <+: (s.step T myrank nranks).subsizes := by
  have hadd : s.subsizes <+: (s.addPartners T myrank nranks).subsizes := by
    rw [InitLoop.addPartners]
    split
    case isTrue => exact prefix_append _ _
    case isFalse => exact prefix_rfl
  have hlis : ((s.addPartners T myrank nranks).findSource T myrank nranks).partners = _ ∧
      ((s.addPartners T myrank nranks).findSource T myrank nranks).subsizes = _ :=
    InitLoop.findSource_lists (s.addPartners T myrank nranks)
  rw [← hlis.2] at hadd
  rw [InitLoop.step,InitLoop.descend]
  split <;> exact hadd

theorem subsizes_run {myrank nranks fuel : ℕ} {s s' : InitLoop} (hs : s.run T myrank nranks fuel = some s') :
    s.subsizes <+: s'.subsizes := by
  induction fuel generalizing s with
  | zero =>
    obtain ⟨-,hso⟩ := ite_none_left_eq_some.mp hs
    exact some.inj hso ▸ prefix_rfl
  | succ fuel ih =>
    rw [InitLoop.run] at hs
    by_cases hmn : 1 < s.nodesLeft
    · rw [if_pos hmn] at hs
      exact (subsizes_step s).trans (ih hs)
    · rw [if_neg hmn] at hs
      exact some.inj hs ▸ prefix_rfl

theorem subsizes_root (hrt : root ∈ topo) (hmn : 1<topo.size) (hT : 0<T.nports) :
    (fresh T topo root root).subsizes.getD 0 0 = topo.size-T.pbig topo.size := by
  obtain ⟨s,hs,t,ht,hsiz,-,-⟩ := init_initialised hT hrt hrt
  obtain ⟨n,hn⟩ := exists_eq_succ_of_ne_zero (Nat.ne_of_gt (lt_of_succ_lt hmn))
  have hcur : (start topo root root).curPos=0 := (start_curPos hrt hrt).trans (place_root hrt)
  have hlt := pbig_lt hT hmn
  rw [hn,InitLoop.run,← hn,if_pos (show 1<(start topo root root).nodesLeft from hmn)] at hs
  obtain ⟨P,hP⟩ := exists_eq_succ_of_ne_zero hT.ne'
  have hfir : ∃ z, ((start topo root root).step T (topo.endpoint2Index root) topo.size).subsizes =
      (topo.size-T.pbig topo.size) :: z := by
    have hsp : ((start topo root root).step T (topo.endpoint2Index root) topo.size).subsizes =
        ((start topo root root).addPartners T (topo.endpoint2Index root) topo.size).subsizes := by
      rw [InitLoop.step_root hT hmn hcur]
    have hnds : (start topo root root).nodesLeft=topo.size := rfl
    have hnil : (start topo root root).subsizes = [] := rfl
    have hzr : T.pbig topo.size+T.psmall topo.size*0<topo.size := by omega
    obtain ⟨is,his⟩ : ∃ is, (List.range T.nports).filter
        (fun i => T.pbig topo.size+T.psmall topo.size*i<topo.size) = 0 :: is := by
      rw [hP,range_succ_eq_map]
      exact ⟨_,List.filter_cons_of_pos (decide_eq_true hzr)⟩
    rw [hsp,InitLoop.addPartners,if_pos hcur]
    simp only [hnds,hnil,his,nil_append,List.map_cons]
    rw [if_neg (by omega),mul_zero,Nat.sub_zero]
    exact ⟨_,rfl⟩
  obtain ⟨z,hz⟩ := hfir
  obtain ⟨z',hz'⟩ := subsizes_run hs
  rw [fresh,ht,getD_some,hsiz,← hz',hz]
  rfl

theorem not_childSize (hpor : 2≤T.nports) (hmn : 2<topo.size) (hrt : root ∈ topo)
    (hS : ∀ e ∈ topo, init T topo root e = some (S e)) : ¬ PhaseLaw topo S := by
  intro h
  have hT : 0<T.nports := by omega
  have hN : 1<topo.size := by omega
  have hlt := pbig_lt hT hN
  have hpos := pbig_pos (T := T) (n := topo.size)
  have hsma := psmall_pos hT hN
  have hfre : S root = fresh T topo root root := some.inj ((hS root hrt).symm.trans (init_fresh hT hrt hrt))
  have hinit := fresh_initialised hT hrt hrt
  have hpla := place_root hrt
  have hsub : subtree hT topo root root=topo.size := by rw [subtree,hpla,Splitting.size_zero]
  obtain ⟨hlng,hdeg⟩ := fresh_root hT hrt hrt hN hpla
  have hfir : first hT topo root root=0 := by rw [first,hpla,arrival_zero]
  have hr := hinit.rstartph
  have hnphs := hinit.nphs
  have htwo : T.pbig topo.size+T.psmall topo.size<topo.size := by
    have hbig : T.pbig topo.size≤topo.size-2 := by
      rw [pbig,room]
      omega
    have hhalf : T.psmall topo.size < topo.size-T.pbig topo.size := by
      rw [psmall,ceiling,Nat.div_lt_iff_lt_mul hT]
      have hmul : 2*(topo.size-T.pbig topo.size)≤(topo.size-T.pbig topo.size)*T.nports := by
        rw [mul_comm]
        exact Nat.mul_le_mul_left _ hpor
      have hmul' : 2*T.nports≤(topo.size-T.pbig topo.size)*T.nports := Nat.mul_le_mul_right _ (by omega)
      omega
    omega
  -- the entry of the first child in the lists of the root's first phase
  have hcou : 0 < min (fresh T topo root root).params.nports ((fresh T topo root root).getRListNpes 0).toNat := by
    have hnpes : 0<(fresh T topo root root).getRListNpes 0 := by
      rw [getRListNpes,hr,hfir,cast_zero,if_pos le_rfl,sub_self,zero_mul,hinit.params]
      split <;> omega
    rw [hinit.params]
    omega
  have hinx : ((0-(fresh T topo root root).rstartph)*(fresh T topo root root).params.nports).toNat+0=0 := by
    rw [hr,hfir,cast_zero,sub_self,zero_mul]
    rfl
  have hper : (fresh T topo root root).partners.getD 0 0 =
      (topo.endpoint2Index root+T.pbig topo.size)%topo.size := by
    rw [hinit.partners,hsub,children_of_lt hN]
    obtain ⟨P,hP⟩ := exists_eq_succ_of_ne_zero hT.ne'
    have hhe : ((T.splitting hT).starts topo.size)=T.pbig topo.size ::
        (((List.range P).map Nat.succ).map fun i => T.pbig topo.size+T.psmall topo.size*i).filter (· < topo.size) := by
      have hstr : (T.splitting hT).starts topo.size =
        ((List.range T.nports).map fun i => T.pbig topo.size+T.psmall topo.size*i).filter (· < topo.size) := rfl
      rw [hstr,hP,range_succ_eq_map,List.map_cons,mul_zero,add_zero]
      exact List.filter_cons_of_pos (decide_eq_true hlt)
    rw [hhe]
    rfl
  have hent : (endpointAt topo root (T.pbig topo.size), topo.size-T.pbig topo.size) ∈
      ((S root).getRList (0 : ℕ)).zip ((S root).getRLens (0 : ℕ)) := by
    rw [hfre,getRList,getRLens,cast_zero,zip_map']
    refine List.mem_map.mpr ⟨0,List.mem_range.mpr hcou,?_⟩
    rw [hinx,hper,hinit.topo_eq,subsizes_root hrt hN hT,partner_eq hrt hrt (by omega),hpla,zero_add]
  have hsi := h.childSize root hrt 0 (by rw [hfre]; omega) _ hent
  -- the ranks behind the first child, without the second one
  have hsbs : subtreeRanks topo S (endpointAt topo root (T.pbig topo.size)) ⊆
      {e | e ∈ topo ∧ T.pbig topo.size ≤ place topo root e ∧
        place topo root e < T.pbig topo.size+(topo.size-T.pbig topo.size)} \
        {endpointAt topo root (T.pbig topo.size+T.psmall topo.size)} := by
    rintro e ⟨he,hhea⟩
    have hall : T.pbig topo.size ≤ place topo root e ∧ place topo root e ≠ T.pbig topo.size+T.psmall topo.size := by
      clear he
      induction hhea with
      | refl =>
        rw [place_endpointAt hrt hlt]
        omega
      | @tail a b _ hsp ih =>
        obtain ⟨ha,hbef,hpar⟩ := HearsFrom.place_lt hT hrt hS hsp
        refine ⟨by omega,fun hb => ?_⟩
        rw [hb,parent_of_pos htwo (by omega),if_pos] at hpar
        · omega
        · have hsta : (T.splitting hT).blockStart topo.size (T.pbig topo.size+T.psmall topo.size) =
              T.pbig topo.size+(T.pbig topo.size+T.psmall topo.size-T.pbig topo.size)/T.psmall topo.size *
                T.psmall topo.size := if_neg (by show ¬ _ < T.pbig topo.size; omega)
          rw [hsta,Nat.add_sub_cancel_left,Nat.div_self hsma,one_mul]
    refine ⟨⟨he,hall.1,?_⟩,fun heq => hall.2 ?_⟩
    · have := place_lt hrt he
      omega
    · rw [mem_singleton_iff.mp heq,place_endpointAt hrt htwo]
  have hfin := finite_places hrt (x := T.pbig topo.size) (n := topo.size-T.pbig topo.size) (by omega)
  have hnca := ncard_places hrt (x := T.pbig topo.size) (n := topo.size-T.pbig topo.size) (by omega)
  have hsec : endpointAt topo root (T.pbig topo.size+T.psmall topo.size) ∈
      {e | e ∈ topo ∧ T.pbig topo.size ≤ place topo root e ∧
        place topo root e < T.pbig topo.size+(topo.size-T.pbig topo.size)} := by
    refine ⟨endpointAt_mem hrt htwo,?_⟩
    rw [place_endpointAt hrt htwo]
    omega
  have hle := ncard_le_ncard hsbs (hfin.subset Set.sdiff_subset)
  rw [ncard_sdiff_singleton_of_mem hsec,hnca] at hle
  have hsi : topo.size-T.pbig topo.size =
      (subtreeRanks topo S (endpointAt topo root (T.pbig topo.size))).ncard := hsi
  omega

end Many

variable {P : ℕ} {T : TreeParameters} {topo : Topology} {root : ℕ}

/-- The schedules of all ranks obey the law of the phases. -/
def ObeysPhaseLaw (T : TreeParameters) (topo : Topology) (root : ℕ) : Prop :=
  ∃ S, (∀ e ∈ topo, init T topo root e = some (S e)) ∧ PhaseLaw topo S

theorem phaseLaw_iff (hP : 0 < P) (hT : T = knomial P ∨ T = ⟨P, 1, 2⟩) (hrt : root ∈ topo) :
    ObeysPhaseLaw T topo root ↔ topo.size ≤ 2 ∨ P = 1 ∧ ∃ d, topo.size = 2 ^ d := by
  have hpor : T.nports=P := by
    obtain rfl | rfl := hT
    · rfl
    · rfl
  have hpos : 0<T.nports := hpor ▸ hP
  have hsi := Topology.size_pos hrt
  have hinit : ∀ e ∈ topo, init T topo root e = some (fresh T topo e root) := fun e he => init_fresh hpos hrt he
  have hhalf (hone : T.nports=1) : ∀ m, 1 < m → m≤topo.size → T.pbig m = (m + 1) / 2 := by
    obtain rfl : P=1 := hpor.symm.trans hone
    obtain rfl : T=knomial 1 := hT.elim id id
    exact fun m hm _ => knomial_pbig (N := m) (.inl rfl) one_pos hm le_rfl
  constructor
  · rintro ⟨S,hS,hlaw⟩
    by_contra hnot
    rw [not_or] at hnot
    by_cases hone : T.nports=1
    · refine hnot.2 ⟨hpor.symm.trans hone,_,(depth_eq_iff (single_of_one hpos (.inl hone))
        (hhalf hone) hsi le_rfl).mp fun c hc => ?_⟩
      have hc' := endpointAt_mem hrt hc
      have hsm := hlaw.nphases _ hc' root hrt
      rw [(initialised_of_init hpos hrt hc' (hS _ hc')).nphs,(initialised_of_init hpos hrt hrt (hS _ hrt)).nphs,
        first,degree,subtree,place_endpointAt hrt hc,first,degree,subtree,place_root hrt,
        arrival_zero,Splitting.size_zero] at hsm
      rw [depth]
      omega
    · exact not_childSize (by omega) (by omega) hrt hS hlaw
  · intro h
    have hone : T.nports=1 ∨ topo.size≤2 := h.elim .inr fun h => .inl (hpor.trans h.1)
    refine ⟨_,hinit,phaseLaw_of_one hpos hone hrt hinit ?_⟩
    have hhalf' : ∀ m, 1 < m → m≤topo.size → T.pbig m = (m + 1) / 2 := by
      intro m hm hle
      obtain hone | htwo := hone
      · exact hhalf hone m hm hle
      · obtain rfl : m=2 := by omega
        have := pbig_lt hpos hm
        have := pbig_pos (T := T) (n := 2)
        omega
    obtain ⟨d,hd⟩ : ∃ d, topo.size=2 ^ d := by
      obtain htwo | ⟨-,hpow⟩ := h
      · obtain heq | heq : topo.size=1 ∨ topo.size=2 := by omega
        · exact ⟨0,heq⟩
        · exact ⟨1,heq⟩
      · exact hpow
    refine (depth_eq_iff (single_of_one hpos hone) hhalf' hsi le_rfl).mpr ?_
    rw [hd] at hhalf' ⊢
    rw [splits_two_pow hhalf' le_rfl]

theorem phaseLaw_four : ObeysPhaseLaw (knomial 1) ⟨List.range 4, nodup_range⟩ 0 :=
  (phaseLaw_iff one_pos (.inl rfl) (List.mem_range.mpr (zero_lt_succ 3))).mpr (.inr ⟨rfl,2,rfl⟩)

/-- Of three ranks the last one counts one phase, the others two. -/
theorem phases_differ : ¬ ObeysPhaseLaw (knomial 1) ⟨List.range 3, nodup_range⟩ 0 := by
  rintro ⟨S,hS,hlaw⟩
  have hfir := congrArg (Option.map nphs) (hS 0 (by decide))
  have hla := congrArg (Option.map nphs) (hS 2 (by decide))
  have hsm := hlaw.nphases 0 (by decide) 2 (by decide)
  rw [map_some,hsm,← map_some,← hla] at hfir
  exact absurd hfir (by decide)

end GenericTreeSchedule

end PAMI.Schedule
