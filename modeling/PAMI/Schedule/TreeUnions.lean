import PAMI.Schedule.TreePlaces

namespace PAMI.Schedule

open PAMI.Math Splitting TreeParameters List Nat

namespace GenericTreeSchedule

section Unions

variable {T : TreeParameters} {topo : Topology} {root a b e numEps : ℕ} {t : GenericTreeSchedule}

/-- What `init` finds for a rank: its place in the tree of the intervals. -/
structure Found (S : Splitting) (topo : Topology) (root e : ℕ) (t : GenericTreeSchedule) :
    Prop where
  listed : Listed t (S.splits (S.size topo.size (place topo root e)))
  topo_eq : t.topo = topo
  partners : t.partners = (S.children (S.size topo.size (place topo root e))).map
    fun x => (topo.endpoint2Index e + x) % topo.size
  isRoot : t.myrank = t.root ↔ place topo root e = 0
  rstartph : t.rstartph = S.arrival topo.size (place topo root e)
  lstartph : t.lstartph = if place topo root e = 0 then 0 else t.rstartph - 1
  mynphs : t.mynphs = t.nphs - t.lstartph
  src : 0 < place topo root e → t.src = (topo.endpoint2Index e + topo.size -
    S.parent topo.size (place topo root e)) % topo.size

theorem init_found (hd : T.Deployed) (hrt : root ∈ topo) (he : e ∈ topo) :
    ∃ t, init T topo root e = some t ∧ Found (T.splitting hd.nports_pos) topo root e t := by
  have hT := hd.nports_pos
  have hcur := start_curPos hrt he
  have hpla := place_lt hrt he
  have hrk := index_eq_iff hrt he
  have hrun : ∃ s, (start topo root e).run T (topo.endpoint2Index e) topo.size topo.size = some s ∧
      InitLoop.Finds (T.splitting hT) (topo.endpoint2Index e) topo.size (start topo root e) s :=
    InitLoop.run_finds hT (by rw [hcur]; exact hpla) (le_succ _)
  obtain ⟨s,hs,hfin⟩ := hrun
  have hpha := hfin.phase
  have hprt := hfin.partners
  have hr := hfin.rstartph rfl
  have hsrc := hfin.src
  have hl := hfin.lstartph
  have hnds : (start topo root e).nodesLeft=topo.size := rfl
  have hzr : (start topo root e).phase=0 := rfl
  have hnil : (start topo root e).partners = [] := rfl
  rw [hcur,hnds] at hpha hprt hr hsrc hl
  rw [hzr,zero_add] at hpha
  rw [hnil,nil_append] at hprt
  rw [hzr,cast_zero,zero_add] at hr hl
  have hlen : s.partners.length=((T.splitting hT).children
      ((T.splitting hT).size topo.size (place topo root e))).length := by
    rw [hprt,length_map]
  have hrst : (if s.rstartph = -1 then (s.phase : ℤ) else s.rstartph) =
      (T.splitting hT).arrival topo.size (place topo root e) := by
    rw [hr,hpha]
    by_cases h : 1<(T.splitting hT).size topo.size (place topo root e)
    · rw [if_pos h,if_neg (by omega)]
    · rw [if_neg h,if_pos rfl,splits_of_le (not_lt.mp h),add_zero]
  have hlst : (if topo.endpoint2Index e = topo.endpoint2Index root then (0 : ℤ)
      else s.lstartph) = if place topo root e=0 then 0
        else ((T.splitting hT).arrival topo.size (place topo root e) : ℤ)-1 := by
    simp only [hrk]
    split_ifs with h0
    · rfl
    · rw [hl (pos_of_ne_zero h0) rfl]
  refine ⟨_,by rw [init,hs,Option.map_some],⟨?_,?_,?_⟩,rfl,hprt,hrk,hrst,?_,rfl,hsrc⟩
  · dsimp only
    rw [hrst,hpha]
    push_cast
    rfl
  · rw [hlen]
    exact le_children_length hd hT _
  · rw [hlen]
    exact children_length_le hT _
  · dsimp only
    rw [hrst,hlst]

section

variable {S : Splitting} (hf : Found S topo root e t) (hrt : root ∈ topo) (he : e ∈ topo)

include hf

theorem Found.phases (h0 : 0 < place topo root e) :
    t.phases = (t.rstartph-1) :: (List.range (S.splits (S.size topo.size
      (place topo root e)))).map fun i : ℕ => t.rstartph+i := by
  have hphs := hf.listed.nphs
  have hl : t.lstartph=t.rstartph-1 := hf.lstartph.trans (if_neg h0.ne')
  have hcou : t.mynphs.toNat=S.splits (S.size topo.size (place topo root e))+1 := by
    rw [hf.mynphs]
    omega
  rw [GenericTreeSchedule.phases,hcou,hl,range_succ_eq_map,map_cons,List.map_map]
  congr 1
  · simp
  · apply map_congr_left
    intro i _
    simp only [Function.comp_apply]
    push_cast
    omega

theorem Found.phases_root (h0 : place topo root e = 0) :
    t.phases=(List.range (S.splits (S.size topo.size (place topo root e)))).map
      fun i : ℕ => t.rstartph+i := by
  have hphs := hf.listed.nphs
  have hl : t.lstartph=t.rstartph := by
    rw [hf.lstartph,if_pos h0,hf.rstartph,h0,arrival_zero]
    rfl
  have hcou : t.mynphs.toNat=S.splits (S.size topo.size (place topo root e)) := by
    rw [hf.mynphs]
    omega
  rw [GenericTreeSchedule.phases,hcou,hl]

include hrt he

theorem Found.getSrcUnionTopology : t.getSrcUnionTopology =
    if place topo root e = 0 then []
    else [endpointAt topo root (place topo root e-S.parent topo.size (place topo root e))] := by
  split_ifs with h0
  · have hnn (phase : ℤ) : t.getLList phase = [] := if_neg fun h => h.1 (hf.isRoot.mpr h0)
    rw [GenericTreeSchedule.getSrcUnionTopology,flatMap_eq_nil_iff]
    exact fun phase _ => hnn phase
  · have hpos := pos_of_ne_zero h0
    have hl : t.lstartph=t.rstartph-1 := hf.lstartph.trans (if_neg h0)
    obtain ⟨hpar,hle⟩ := parent_bounds (S := S) (place_lt hrt he) hpos
    have hfir : t.getLList (t.rstartph-1) = [t.topo.index2Endpoint t.src] :=
      if_pos ⟨fun h => h0 (hf.isRoot.mp h),hl.symm⟩
    have hrs (i : ℕ) : t.getLList (t.rstartph+i) = [] := if_neg fun h => by have := h.2; omega
    rw [GenericTreeSchedule.getSrcUnionTopology,hf.phases hpos,flatMap_cons,hfir,
      flatMap_map,hf.topo_eq,hf.src hpos,source_eq hrt he hpar hle]
    simp [hrs]

theorem Found.getDstUnionTopology (hnum : t.partners.length≤numEps) :
    t.getDstUnionTopology numEps = some ((S.children (S.size topo.size (place topo root e))).map
      fun x => endpointAt topo root (place topo root e+x)) := by
  have hli := hf.listed.dstUnion hnum (j := 0) (Nat.zero_add _)
  have hsi := add_size_le (S := S) (place_lt hrt he)
  have hprt : t.partners.map t.topo.index2Endpoint=(S.children (S.size topo.size (place topo root e))).map
        fun x => endpointAt topo root (place topo root e+x) := by
    rw [hf.partners,hf.topo_eq,List.map_map]
    apply map_congr_left
    intro x hx
    have hlt := (mem_children_bounds hx).2
    exact partner_eq hrt he (by omega)
  simp only [cast_zero,add_zero,Nat.zero_mul,take_zero,map_nil,hprt] at hli
  rw [GenericTreeSchedule.getDstUnionTopology]
  rcases Nat.eq_zero_or_pos (place topo root e) with h0 | h0
  · rw [hf.phases_root h0,hli]
  · have hnn : t.getRListNpes (t.rstartph-1)=0 := if_neg (by omega)
    have hemp : t.getRList (t.rstartph-1) = [] := by
      rw [getRList,hnn]
      simp
    rw [hf.phases h0,dstUnion,if_neg (by rw [hnn]; simp),hemp,append_nil,hli]

omit hrt he in
theorem Found.npes_nonneg {phase : ℤ} (hpha : phase ∈ t.phases) :
    0 ≤ t.getRListNpes phase := by
  have hlis {i : ℕ} (hi : i ∈ List.range (S.splits (S.size topo.size (place topo root e)))) :=
    (hf.listed.count (mem_range.mp hi)).1
  rcases Nat.eq_zero_or_pos (place topo root e) with h0 | h0
  · rw [hf.phases_root h0,List.mem_map] at hpha
    obtain ⟨i,hi,rfl⟩ := hpha
    exact hlis hi
  · rw [hf.phases h0,mem_cons,List.mem_map] at hpha
    rcases hpha with rfl | ⟨i,hi,rfl⟩
    · rw [getRListNpes,if_neg (by omega)]
    · exact hlis hi

end

/-- The tree of the union topologies, as its ranks see it. -/
structure Spans (T : TreeParameters) (topo : Topology) (root : ℕ) : Prop where
  returns : ∀ e ∈ topo, (init T topo root e).isSome
  enough : ∀ a ∈ topo, ∀ t ∈ init T topo root a, ∀ numEps, t.partners.length ≤ numEps →
    (t.getDstUnionTopology numEps).isSome
  dst_iff : ∀ a ∈ topo, ∀ b ∈ topo, ∀ ta ∈ init T topo root a, ∀ tb ∈ init T topo root b,
    ∀ numEps, ∀ dst ∈ ta.getDstUnionTopology numEps, b ∈ dst ↔ tb.getSrcUnionTopology = [a]
  src_root : ∀ t ∈ init T topo root root, t.getSrcUnionTopology = []
  src_one : ∀ b ∈ topo, b ≠ root → ∀ t ∈ init T topo root b,
    ∃ a ∈ topo, t.getSrcUnionTopology = [a]
  reaches : ∀ b ∈ topo, Relation.ReflTransGen
    (fun b a => ∃ t ∈ init T topo root b, a ∈ t.getSrcUnionTopology) b root

theorem found_of_init (hd : T.Deployed) (hrt : root ∈ topo) (he : e ∈ topo)
    (ht : t ∈ init T topo root e) : Found (T.splitting hd.nports_pos) topo root e t := by
  obtain ⟨t',ht',hf⟩ := init_found hd hrt he
  obtain rfl := Option.mem_unique ht ht'
  exact hf

theorem mem_dst_iff {S : Splitting} {ta tb : GenericTreeSchedule} {dst : List ℕ}
    (hrt : root ∈ topo) (ha : a ∈ topo) (hb : b ∈ topo) (hfa : Found S topo root a ta)
    (hfb : Found S topo root b tb) (hdst : ta.getDstUnionTopology numEps = some dst) :
    b ∈ dst ↔ tb.getSrcUnionTopology = [a] := by
  have hla := place_lt hrt ha
  have hlb := place_lt hrt hb
  have hsi := add_size_le (S := S) hla
  have hall := hfa.getDstUnionTopology hrt ha (le_refl _)
  have hdst' : dst=(S.children (S.size topo.size (place topo root a))).map
      fun x => endpointAt topo root (place topo root a+x) :=
    (dstUnion_eq hdst).trans (dstUnion_eq hall).symm
  have hmem : b ∈ dst ↔ ∃ x ∈ S.children (S.size topo.size (place topo root a)),
      place topo root a+x = place topo root b := by
    rw [hdst',List.mem_map]
    refine exists_congr fun x => and_congr_right fun hx => ?_
    have hlt := (mem_children_bounds hx).2
    constructor
    · rintro rfl
      exact (place_endpointAt hrt (by omega)).symm
    · intro h
      rw [h,endpointAt_place hrt hb]
  rw [hmem,mem_children_iff hla hlb,hfb.getSrcUnionTopology hrt hb]
  split_ifs with h0
  · simp [h0]
  · have hpos := pos_of_ne_zero h0
    obtain ⟨-,hle⟩ := parent_bounds (S := S) hlb hpos
    rw [singleton_inj]
    constructor
    · rintro ⟨-,h⟩
      rw [show place topo root b-S.parent topo.size (place topo root b) = place topo root a by
        omega,endpointAt_place hrt ha]
    · intro h
      have hpla := congrArg (place topo root) h
      rw [place_endpointAt hrt (by omega)] at hpla
      omega

theorem reaches_root (hd : T.Deployed) (hrt : root ∈ topo) (hb : b ∈ topo) :
    Relation.ReflTransGen
      (fun b a => ∃ t ∈ init T topo root b, a ∈ t.getSrcUnionTopology) b root := by
  induction hn : place topo root b using Nat.strong_induction_on generalizing b with
  | _ n ih =>
    rcases Nat.eq_zero_or_pos (place topo root b) with h0 | h0
    · rw [(eq_root_iff hrt hb).mpr h0]
    · obtain ⟨t,ht,hf⟩ := init_found hd hrt hb
      have hlt := place_lt hrt hb
      have hpar := parent_bounds (S := T.splitting hd.nports_pos) hlt h0
      have hsrc := hf.getSrcUnionTopology hrt hb
      rw [if_neg h0.ne'] at hsrc
      refine .head ⟨t,ht,by rw [hsrc]; exact mem_singleton_self _⟩ ?_
      refine ih _ ?_ (endpointAt_mem hrt (by omega)) rfl
      rw [place_endpointAt hrt (by omega)]
      omega

theorem spans (hd : T.Deployed) (hrt : root ∈ topo) : Spans T topo root where
  returns e he := by
    obtain ⟨t,ht,-⟩ := init_found hd hrt he
    rw [ht]
    rfl
  enough a ha t ht numEps hnum := by
    rw [(found_of_init hd hrt ha ht).getDstUnionTopology hrt ha hnum]
    rfl
  dst_iff a ha b hb ta hta tb htb numEps dst hdst :=
    mem_dst_iff hrt ha hb (found_of_init hd hrt ha hta) (found_of_init hd hrt hb htb) hdst
  src_root t ht := by
    rw [(found_of_init hd hrt hrt ht).getSrcUnionTopology hrt hrt,if_pos (place_root hrt)]
  src_one b hb hne t ht := by
    have hlt := place_lt hrt hb
    refine ⟨_,endpointAt_mem hrt ?_,((found_of_init hd hrt hb ht).getSrcUnionTopology hrt
      hb).trans (if_neg (mt (eq_root_iff hrt hb).mpr hne))⟩
    omega
  reaches b hb := reaches_root hd hrt hb

/-- One round of the loop of `init`. -/
def loopStep (T : TreeParameters) (topo : Topology) (e : ℕ) (s : InitLoop) (_ : Unit) :
    Option InitLoop :=
  if 1 < s.nodesLeft then some (s.step T (topo.endpoint2Index e) topo.size) else none

/-- The sizes of a round that are not clipped are not below zero. -/
structure Sized (T : TreeParameters) (topo : Topology) (s : InitLoop) : Prop where
  pbig_le : T.pbig s.nodesLeft ≤ s.nodesLeft
  psmall_pos : 0 < T.psmall s.nodesLeft
  source_le : s.curPos ≤ topo.size
  descend_le : T.pbig s.nodesLeft ≤ s.curPos →
    T.pbig s.nodesLeft + (s.curPos - T.pbig s.nodesLeft) / T.psmall s.nodesLeft * T.psmall s.nodesLeft ≤ s.curPos
  curPos_lt : s.curPos < s.nodesLeft

section

variable {s : InitLoop} (hT : 0 < T.nports) (hrt : root ∈ topo) (he : e ∈ topo)
  (h : Run (loopStep T topo e) (fun _ _ => True) (start topo root e) s)
include hT hrt he h

theorem loop_bounds : s.curPos < s.nodesLeft ∧ s.nodesLeft≤topo.size := by
  refine h.invariant (P := fun s => s.curPos < s.nodesLeft ∧ s.nodesLeft≤topo.size)
    ⟨?_,le_refl _⟩ fun s _ s' hs _ hsp => ?_
  · rw [start_curPos hrt he]
    exact place_lt hrt he
  · obtain ⟨hc,hn⟩ := hs
    simp only [loopStep] at hsp
    split_ifs at hsp with h1
    obtain rfl := Option.some.inj hsp
    rcases Nat.eq_zero_or_pos s.curPos with h0 | h0
    · have hbig := pbig_lt hT h1
      rw [InitLoop.step_root hT h1 h0]
      exact ⟨pbig_pos,(hbig.le).trans hn⟩
    · have hle := blockStart_le (S := T.splitting hT) (c := s.curPos) h1
      have hlt := lt_block (S := T.splitting hT) h1 hc
      have hsi := blockSize_lt (S := T.splitting hT) h1 hc
      rw [InitLoop.step_inner hT h1 hc h0]
      dsimp only
      omega

theorem loop_sized (h1 : 1 < s.nodesLeft) : Sized T topo s := by
  obtain ⟨hc,hn⟩ := loop_bounds hT hrt he h
  have hdiv := div_mul_le_self (s.curPos-T.pbig s.nodesLeft) (T.psmall s.nodesLeft)
  exact ⟨(pbig_lt hT h1).le,psmall_pos hT h1,by omega,fun hle => by omega,hc⟩

end

/-- The k-nomial and k-ary trees are spanning trees that all ranks see alike, and but for
`nodes_left - _nports` no size on the way is below zero. -/
theorem tree_spans (hd : T.Deployed) (hrt : root ∈ topo) :
    Spans T topo root ∧ ∀ e ∈ topo, (∀ s, Run (loopStep T topo e) (fun _ _ => True) (start topo root e) s →
        1 < s.nodesLeft → Sized T topo s) ∧
      ∀ t ∈ init T topo root e, ∀ phase ∈ t.phases, 0 ≤ t.getRListNpes phase :=
  ⟨spans hd hrt,fun _ he => ⟨fun _ => loop_sized hd.nports_pos hrt he,
    fun _ ht _ => (found_of_init hd hrt he ht).npes_nonneg⟩⟩

theorem tree_spans_six : Spans ⟨3, 1, 4⟩ ⟨[0, 1, 2, 3, 4, 5], by decide⟩ 2 := by
  have hd : TreeParameters.Deployed ⟨3,1,4⟩ := .inl (by decide)
  refine (tree_spans hd ?_).1
  decide

/-- With four ports, two ranks are fewer nodes than there are ports, so that the unsigned
`nodes_left - _nports` wraps around. -/
theorem room_below_zero : ∃ topo : Topology, topo.endpoints = [0, 1] ∧
    TreeParameters.Deployed ⟨4, 1, 5⟩ ∧ 1 < (start topo 0 0).nodesLeft ∧
    room ⟨4, 1, 5⟩ (start topo 0 0).nodesLeft < 0 ∧
    (BitVec.ofNat 32 (start topo 0 0).nodesLeft - 4).toNat = 2^32 - 2 :=
  ⟨⟨[0,1],by decide⟩,rfl,.inl (by decide),by decide,by decide,by decide⟩

end Unions

end GenericTreeSchedule

end PAMI.Schedule
