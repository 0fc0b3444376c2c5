import PAMI.Common.Topology

namespace PAMI.Common

open Math List Function

variable {m : Mapping} {n d : ℕ} {ll ur c : Coord}

section Coord

theorem coordOfIndex_above (ix x : ℕ) (hx : d≤x) : coordOfIndex ll ur d ix c x = c x := by
  induction d generalizing ix c with
  | zero => rfl
  | succ d ih =>
    rw [coordOfIndex]
    split
    · rfl
    · rw [ih _ (by omega),update_of_ne (by omega)]

theorem coordOfIndex_eq (ix : ℕ) (hc : ∀ x<d, c x = ll x) :
    ∀ x<d, coordOfIndex ll ur d ix c x = (Box.mk ll ur).decode d ix x := by
  induction d generalizing ix c with
  | zero => intro x hx; omega
  | succ d ih =>
    intro x hx
    rw [coordOfIndex]
    split
    · rename_i h0
      rw [h0,Box.decode_zero,hc x hx]
    · rw [Box.decode]
      by_cases hxd : x=d
      · subst hxd
        rw [coordOfIndex_above _ _ le_rfl,update_self,update_self]
        rfl
      · rw [update_of_ne hxd]
        refine ih _ (fun y hy => ?_) x (by omega)
        rw [update_of_ne (by omega)]
        exact hc y (by omega)

theorem indexOfCoord_range (k a : ℕ) (h : ∀ x, a≤x → x<a+k → ll x ≤ c x ∧ c x ≤ ur x) :
    indexOfCoord ll ur c (List.range' a k) ((Box.mk ll ur).encode c a) = (Box.mk ll ur).encode c (a+k) := by
  induction k generalizing a with
  | zero => rfl
  | succ k ih =>
    have ha := h a le_rfl (by omega)
    rw [range'_succ,indexOfCoord,if_neg (by omega)]
    have := ih (a+1) fun x hx hx' => h x (by omega) (by omega)
    rw [show a+1+k=a+(k+1) by omega] at this
    exact this

theorem indexOfCoord_outside (xs : List ℕ) (ix : ℕ) (h : ∃ x ∈ xs, ¬(ll x ≤ c x ∧ c x ≤ ur x)) :
    indexOfCoord ll ur c xs ix = noIndex := by
  induction xs generalizing ix with
  | nil => obtain ⟨x,hx,-⟩ := h; cases hx
  | cons y xs ih =>
    rw [indexOfCoord]
    split
    · rfl
    · rename_i hy
      refine ih _ ?_
      obtain ⟨x,hx,hout⟩ := h
      rcases mem_cons.1 hx with rfl | hx
      · exact absurd (by omega) hout
      · exact ⟨x,hx,hout⟩

end Coord

namespace Topology

variable {t : Topology}

/-- `index2Rank` and `rank2Index` are inverse between the indices below the size and the members, and
tell where there is no rank or no index. -/
structure Indexed (m : Mapping) (n : ℕ) (t : Topology) : Prop where
  rank : ∀ ix < t.numRanks, t.Member m n (t.index2Rank m ix) ∧ t.rank2Index m (t.index2Rank m ix) = ix
  index : ∀ r, t.Member m n r → t.rank2Index m r < t.numRanks ∧ t.index2Rank m (t.rank2Index m r) = r
  nonmember : ∀ r < n, ¬t.Member m n r → t.rank2Index m r = noIndex
  beyond : ∀ ix, t.numRanks ≤ ix → ¬t.Member m n (t.index2Rank m ix)

section

variable (hm : m.Bijective n)
include hm

theorem not_member_noTask : ¬t.Member m n noTask := fun h => by
  have h1 := h.1
  have h2 := hm.small
  unfold noTask at h1
  omega

theorem beyond_size (hc : t.allContexts=false) (ix : ℕ) (h : t.numRanks ≤ ix) :
    ¬t.Member m n (t.index2Rank m ix) := by
  have hs : ¬ix<t.size := by simpa [numRanks,hc] using h
  have : t.index2Rank m ix=noTask := by simp [index2Rank,hc,hs]
  rw [this]
  exact not_member_noTask hm

theorem indexed_of_inverse (hc : t.allContexts=false)
    (h1 : ∀ ix<t.size, t.Member m n (t.index2Rank m ix) ∧ t.rank2Index m (t.index2Rank m ix) = ix)
    (h2 : ∀ r, t.Member m n r → ∃ ix<t.size, t.index2Rank m ix = r)
    (h3 : ∀ r<n, ¬t.Member m n r → t.rank2Index m r = noIndex) : Indexed m n t := by
  have hs : t.numRanks=t.size := by simp [numRanks,hc]
  refine ⟨fun ix hix => h1 ix (hs ▸ hix),fun r hr => ?_,h3,beyond_size hm hc⟩
  obtain ⟨ix,hix,rfl⟩ := h2 r hr
  rw [(h1 ix hix).2,hs]
  exact ⟨hix,rfl⟩

theorem indexed_single (ht : t.Valid m n) {rank : ℕ} (hk : t.type = .SINGLE rank) : Indexed m n t := by
  have hv := ht.2
  rw [hk] at hv
  have hix : ∀ ix<t.size, t.index2Rank m ix=rank := fun ix hix => by simp [index2Rank,ht.1,hix,hk]
  have hrix : ∀ r, t.rank2Index m r = if rank=r then 0 else noIndex := fun r => by simp [rank2Index,hk]
  have hmem : t.Member m n rank := by rw [Member,hk]; exact ⟨hv.2,rfl⟩
  refine indexed_of_inverse hm ht.1 (fun ix h => ?_) (fun r hr => ?_) fun r hr hnr => ?_
  · rw [hix ix h,hrix,if_pos rfl]
    exact ⟨hmem,by omega⟩
  · rw [Member,hk] at hr
    exact ⟨0,by omega,by rw [hix 0 (by omega),hr.2]⟩
  · rw [hrix,if_neg fun h : rank=r => hnr (h ▸ hmem)]

theorem indexed_range (ht : t.Valid m n) {first last : ℕ} (hk : t.type = .RANGE first last) :
    Indexed m n t := by
  have hv := ht.2
  rw [hk] at hv
  have hix : ∀ ix<t.size, t.index2Rank m ix=first+ix := fun ix hix => by simp [index2Rank,ht.1,hix,hk]
  have hrix : ∀ r, t.rank2Index m r = if first ≤ r ∧ r≤last then r-first else noIndex :=
    fun r => by simp only [rank2Index,hk]
  have hmem : ∀ r, t.Member m n r ↔ first ≤ r ∧ r≤last := fun r => by simp only [Member,hk]; omega
  refine indexed_of_inverse hm ht.1 (fun ix h => ?_) (fun r hr => ?_) fun r hr hnr => ?_
  · rw [hix ix h,hrix,hmem,if_pos (by omega)]
    omega
  · rw [hmem] at hr
    exact ⟨r-first,by omega,by rw [hix _ (by omega)]; omega⟩
  · rw [hmem] at hnr
    rw [hrix,if_neg hnr]

theorem indexed_list (ht : t.Valid m n) {ranklist : ℕ → ℕ} (hk : t.type = .LIST ranklist) :
    Indexed m n t := by
  have hv := ht.2
  rw [hk] at hv
  have hix : ∀ ix<t.size, t.index2Rank m ix = ranklist ix := fun ix hix => by simp [index2Rank,ht.1,hix,hk]
  have hmem : ∀ ix<t.size, t.Member m n (ranklist ix) := fun ix hix => by
    rw [Member,hk]; exact ⟨hv.1 ix hix,ix,hix,rfl⟩
  refine indexed_of_inverse hm ht.1 (fun ix h => ?_) (fun r hr => ?_) fun r hr hnr => ?_
  · rw [hix ix h]
    refine ⟨hmem ix h,?_⟩
    have hf : (List.range t.size).find? (fun x => ranklist ix == ranklist x) = some ix := by
      rw [List.find?_range_eq_some]
      refine ⟨by simp,mem_range.2 h,fun j hj => ?_⟩
      have : ranklist ix ≠ ranklist j := fun he => by
        have := hv.2 ix h j (by omega) he
        omega
      simpa using this
    simp only [rank2Index,hk,hf]
  · rw [Member,hk] at hr
    obtain ⟨-,ix,h,rfl⟩ := hr
    exact ⟨ix,h,hix ix h⟩
  · have hf : (List.range t.size).find? (fun x => r == ranklist x)=none := by
      rw [List.find?_eq_none]
      intro x hx
      have hx := mem_range.1 hx
      have : r≠ranklist x := fun he => hnr (he ▸ hmem x hx)
      simpa using this
    simp only [rank2Index,hk,hf]

theorem indexed_coord (ht : t.Valid m n) (hk : t.type = .COORD ll ur) : Indexed m n t := by
  have hv := ht.2
  rw [hk] at hv
  obtain ⟨hb,hsi⟩ := hv
  have hle : ∀ x < m.globalDims, (Box.mk ll ur).ll x ≤ (Box.mk ll ur).ur x := fun x hx => (hb x hx).1
  have hin : ∀ ix, (Box.mk ll ur).Inside m.globalDims ((Box.mk ll ur).decode m.globalDims ix) :=
    fun ix => Box.decode_inside hle
  have hcrd : ∀ ix, ∀ x < m.globalDims,
      coordOfIndex ll ur m.globalDims ix ll x = (Box.mk ll ur).decode m.globalDims ix x :=
    fun ix => coordOfIndex_eq ix fun x _ => rfl
  have hmach : ∀ ix, ∀ x < m.globalDims, coordOfIndex ll ur m.globalDims ix ll x < m.torusSize x := fun ix x hx => by
      rw [hcrd ix x hx]
      exact (hin ix x hx).2.trans_lt (hb x hx).2
  have hix : ∀ ix<t.size, t.index2Rank m ix =
      m.network2task (coordOfIndex ll ur m.globalDims ix ll) := fun ix hix => by
    simp [index2Rank,ht.1,hix,hk]
  have hcoo : ∀ ix<t.size, ∀ x < m.globalDims, m.task2network (t.index2Rank m ix) x =
      (Box.mk ll ur).decode m.globalDims ix x := fun ix h x hx => by
    rw [hix ix h,hm.right _ (hmach ix) x hx,hcrd ix x hx]
  have hrix : ∀ r, t.rank2Index m r = indexOfCoord ll ur (m.task2network r) (List.range m.globalDims) 0 := fun r => by
    simp only [rank2Index,hk]
  have hine : ∀ r, (Box.mk ll ur).Inside m.globalDims (m.task2network r) →
      t.rank2Index m r = (Box.mk ll ur).encode (m.task2network r) m.globalDims := by
    intro r hr
    have := indexOfCoord_range m.globalDims 0 fun x _ hx => hr x (by omega)
    rw [hrix,range_eq_range']
    simpa [Box.encode] using this
  refine indexed_of_inverse hm ht.1 (fun ix h => ?_) (fun r hr => ?_) fun r hr hnr => ?_
  · have hins : (Box.mk ll ur).Inside m.globalDims (m.task2network (t.index2Rank m ix)) :=
      fun x hx => by rw [hcoo ix h x hx]; exact hin ix x hx
    refine ⟨?_,?_⟩
    · rw [Member,hk]
      exact ⟨by rw [hix ix h]; exact hm.task _ (hmach ix),hins⟩
    · rw [hine _ hins,Box.encode_congr (hcoo ix h)]
      exact Box.encode_decode (hsi ▸ h)
  · rw [Member,hk] at hr
    have hlt := Box.encode_lt hr.2
    refine ⟨_,hsi ▸ hlt,?_⟩
    rw [hix _ (hsi ▸ hlt)]
    refine hm.task_eq hr.1 fun x hx => ?_
    rw [hcrd _ x hx,Box.decode_encode hr.2 x hx]
  · rw [hrix]
    refine indexOfCoord_outside _ _ ?_
    by_contra hc
    refine hnr ?_
    rw [Member,hk]
    refine ⟨hr,fun x hx => ?_⟩
    by_contra hout
    exact hc ⟨x,mem_range.2 hx,hout⟩

end

end Topology

end PAMI.Common
