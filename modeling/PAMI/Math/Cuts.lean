import Mathlib.Algebra.Module.Basic
import Mathlib.Data.List.Nodup
import Mathlib.Tactic.Ring

namespace PAMI.Math

open List Nat

/-- How many of `total` items piece `c` of `n` has if all pieces but the last have `B`. -/
def cutLength (total B n c : ℕ) : ℕ := if c + 1 = n then total - B * (n - 1) else B

theorem cutLength_last (total B c : ℕ) : cutLength total B (c+1) c = total-B*c := by
  simp [cutLength]

theorem cutLength_of_lt {total B n c : ℕ} (h : c+1<n) : cutLength total B n c = B := if_neg h.ne

theorem cutLength_end {total B n c : ℕ} (hB : B*n≤total) (hc : c<n) :
    B*c+cutLength total B n c ≤ total := by
  obtain rfl | h : c+1=n ∨ c+1<n := by omega
  · have : B*c≤B*(c+1) := Nat.mul_le_mul_left B (le_succ c)
    rw [cutLength_last]
    omega
  · have : B*(c+1)≤B*n := Nat.mul_le_mul_left B hc
    rw [cutLength_of_lt h]
    rw [mul_succ] at this
    omega

theorem le_cutLength {total B n c : ℕ} (hB : B*n≤total) (hc : c<n) :
    B ≤ cutLength total B n c := by
  obtain rfl | h : c+1=n ∨ c+1<n := by omega
  · rw [cutLength_last]
    rw [mul_succ] at hB
    omega
  · exact (cutLength_of_lt h).ge

section Monoid

variable {D : Type*} [AddCommMonoid D] {pos : ℕ → D} {S : D} {total B n c p : ℕ}

def Repeats (pos : ℕ → D) (total B : ℕ) (S : D) : Prop := ∀ p, B + p < total → pos (B + p) = S + pos p

theorem Repeats.moved (h : Repeats pos total B S) (hp : B*c+p<total) :
    pos (B*c+p) = c • S+pos p := by
  induction c with
  | zero => simp
  | succ c ih =>
    have hnx : B*(c+1)+p=B+(B*c+p) := by rw [mul_succ]; omega
    rw [hnx] at hp ⊢
    rw [h _ hp,ih (by omega),succ_nsmul',add_assoc]

/-- The items of piece `c`: as many from the start of the sequence, moved by `c` times `S`. -/
def piece (pos : ℕ → D) (total B : ℕ) (S : D) (n c : ℕ) : List D :=
  (List.range (cutLength total B n c)).map fun p => c • S + pos p

theorem Repeats.piece (h : Repeats pos total B S) (hB : B*n≤total) (hc : c<n) :
    piece pos total B S n c = (List.range (cutLength total B n c)).map fun p => pos (B*c+p) := by
  apply map_congr_left
  intro p hp
  have hend := cutLength_end hB hc
  rw [mem_range] at hp
  rw [h.moved (by omega)]

omit [AddCommMonoid D] in
theorem flatMap_equal (f : ℕ → D) (B k : ℕ) :
    ((List.range k).flatMap fun c => (List.range B).map fun p => f (B*c+p)) = (List.range (B*k)).map f := by
  induction k with
  | zero => simp
  | succ k ih =>
    rw [range_succ,flatMap_append,ih,mul_succ,range_add,map_append]
    simp

theorem Repeats.flatMap (h : Repeats pos total B S) (hB : B*n≤total) (hn : 0<n) :
    (List.range n).flatMap (Math.piece pos total B S n) = (List.range total).map pos := by
  obtain ⟨k,rfl⟩ : ∃ k, n=k+1 := ⟨n-1,by omega⟩
  have hk : B*k≤total := (Nat.mul_le_mul_left B (le_succ k)).trans hB
  have hinn : (List.range k).flatMap (Math.piece pos total B S (k+1)) = (List.range (B*k)).map pos := by
    rw [← flatMap_equal pos B k]
    apply flatMap_congr
    intro c hc
    rw [mem_range] at hc
    rw [h.piece hB (by omega),cutLength_of_lt (by omega)]
  have hla : Math.piece pos total B S (k+1) k = (List.range (total-B*k)).map fun p => pos (B*k+p) := by
    rw [h.piece hB (by omega),cutLength_last]
  have hspl : List.range total = List.range (B*k) ++ (List.range (total-B*k)).map (B*k + ·) := by
    rw [← range_add,Nat.add_sub_cancel' hk]
  rw [range_succ,flatMap_append,hinn,hspl,map_append,map_map]
  simp [hla,Function.comp_def]

end Monoid

/-- The lists share no item with each other, and together they have the items of `whole`. -/
def Partitions {D : Type*} (pieces : List (List D)) (whole : List D) : Prop :=
  pieces.Pairwise List.Disjoint ∧ ∀ x, x ∈ pieces.flatten ↔ x ∈ whole

theorem Partitions.of_flatten {D : Type*} {pieces : List (List D)} {whole : List D}
    (h : pieces.flatten=whole) (hnod : whole.Nodup) : Partitions pieces whole := by
  subst h
  exact ⟨(nodup_flatten.mp hnod).2,fun _ => Iff.rfl⟩

theorem Partitions.map_iff {D E : Type*} {f : D → E} (hf : Function.Injective f)
    (pieces : List (List D)) (whole : List D) :
    Partitions (pieces.map (List.map f)) (whole.map f) ↔ Partitions pieces whole := by
  have hdisj (l l' : List D) : List.Disjoint (l.map f) (l'.map f) ↔ List.Disjoint l l' := List.Disjoint.map_iff hf
  have hflat : (pieces.map (List.map f)).flatten=pieces.flatten.map f := (map_flatten).symm
  unfold Partitions
  rw [pairwise_map,hflat]
  simp only [hdisj]
  apply and_congr_right
  intro _
  constructor
  · intro h x
    simpa [hf.eq_iff] using h (f x)
  · intro h y
    simp only [mem_map,h]

section Increasing

variable {pos : ℕ → ℕ} {total B S n : ℕ} {p c q : ℕ}

def Increasing (pos : ℕ → ℕ) (total : ℕ) : Prop := ∀ p q, p < q → q < total → pos p < pos q

theorem Increasing.le (h : Increasing pos total) (hpq : p≤q) (hq : q<total) : pos p ≤ pos q := by
  obtain rfl | hlt := eq_or_lt_of_le hpq
  · exact le_refl _
  · exact (h p q hlt hq).le

theorem Increasing.inj (h : Increasing pos total) (hp : p<total) (hq : q<total) (heq : pos p = pos q) :
    p=q := by
  obtain hlt | rfl | hgt := lt_trichotomy p q
  · exact absurd heq (h p q hlt hq).ne
  · rfl
  · exact absurd heq (h q p hgt hp).ne'

theorem Increasing.nodup (h : Increasing pos total) : ((List.range total).map pos).Nodup := by
  apply List.Nodup.map_on _ nodup_range
  intro p hp q hq heq
  exact h.inj (mem_range.mp hp) (mem_range.mp hq) heq

theorem mem_piece {x : ℕ} : x ∈ piece pos total B S n c ↔ ∃ p < cutLength total B n c, c*S+pos p = x := by
  simp [piece]

structure CutUp (pos : ℕ → ℕ) (total B S n : ℕ) : Prop where
  increasing : Increasing pos total
  bound : B * n ≤ total
  parts : Partitions ((List.range n).map (piece pos total B S n)) ((List.range total).map pos)

namespace CutUp

variable (h : CutUp pos total B S n) {d : ℕ}
include h

theorem length_le (hc : c<n) : cutLength total B n c ≤ total := by
  have := cutLength_end h.bound hc
  omega

theorem disjoint {x : ℕ} (hc : c<n) (hd : d<n) (hne : c≠d) (hx : x ∈ piece pos total B S n c) :
    x ∉ piece pos total B S n d := by
  have hpair := pairwise_map.mp h.parts.1
  rw [pairwise_iff_getElem] at hpair
  intro hx'
  obtain hlt | hgt := Nat.lt_or_gt_of_ne hne
  · have := hpair c d (by simpa using hc) (by simpa using hd) hlt
    rw [getElem_range,getElem_range] at this
    exact this hx hx'
  · have := hpair d c (by simpa using hd) (by simpa using hc) hgt
    rw [getElem_range,getElem_range] at this
    exact this hx' hx

theorem mem_iff (x : ℕ) : (∃ c<n, x ∈ piece pos total B S n c) ↔ ∃ p<total, pos p = x := by
  have := h.parts.2 x
  simpa [mem_flatten,mem_map] using this

theorem item (hc : c<n) (hp : p < cutLength total B n c) : ∃ r<total, pos r = c*S+pos p :=
  (h.mem_iff _).mp ⟨c,hc,mem_piece.mpr ⟨p,hp,rfl⟩⟩

theorem handed (hq : q<total) : ∃ c<n, ∃ p < cutLength total B n c, c*S+pos p = pos q := by
  obtain ⟨c,hc,hx⟩ := (h.mem_iff _).mpr ⟨q,hq,rfl⟩
  exact ⟨c,hc,mem_piece.mp hx⟩

theorem same_place (hc : c<n) (hd : d<n) (hp : p < cutLength total B n c) (hq : q < cutLength total B n d)
    (heq : c*S+pos p = d*S+pos q) : c=d ∧ p=q := by
  have hcd : c=d := by
    by_contra hne
    exact h.disjoint hc hd hne (mem_piece.mpr ⟨p,hp,rfl⟩) (mem_piece.mpr ⟨q,hq,heq.symm⟩)
  subst hcd
  have hlen := h.length_le hc
  exact ⟨rfl,h.increasing.inj (by omega) (by omega) (by omega)⟩

theorem below_second (hn : 1<n) (hB : 0<B) (hp : p<B) : pos p < S+pos 0 := by
  have hfir : cutLength total B n 0=B := cutLength_of_lt hn
  have hsec : 0 < cutLength total B n 1 := hB.trans_le (le_cutLength h.bound hn)
  obtain ⟨r,hr,hpos⟩ := h.item hn hsec
  rw [one_mul] at hpos
  have hrB : B ≤ r := by
    by_contra hlt
    have := h.same_place (by omega) hn (hfir ▸ not_le.mp hlt) hsec
      (by rw [zero_mul,zero_add,one_mul,hpos])
    omega
  rw [← hpos]
  exact h.increasing p r (by omega) hr

theorem below_later (hB : 0<B) (hcd : c<d) (hd : d<n) (hp : p < cutLength total B n c)
    (hq : q < cutLength total B n d) : c*S+pos p < d*S+pos q := by
  have hlen := h.length_le hd
  have hpB : p<B := by rwa [cutLength_of_lt (by omega)] at hp
  have hsec := h.below_second (by omega) hB hpB
  have hsta : pos 0 ≤ pos q := h.increasing.le (zero_le q) (by omega)
  have hmul : (c+1)*S≤d*S := Nat.mul_le_mul_right S hcd
  rw [succ_mul] at hmul
  omega

theorem placed (hB : 0<B) (hc : c<n) (hp : p < cutLength total B n c) :
    pos (B*c+p) = c*S+pos p := by
  induction hm : B*c+p using Nat.strong_induction_on generalizing c p with
  | _ m ih =>
    subst hm
    have hend := cutLength_end h.bound hc
    -- what has been handed out before are the items before
    have hbef (r : ℕ) (hr : r<B*c+p) :
        ∃ d p', d ≤ c ∧ p' < cutLength total B n d ∧ pos r = d*S+pos p' ∧ B*d+p'=r := by
      by_cases hrc : r<B*c
      · have hdiv : r/B < c := Nat.div_lt_of_lt_mul hrc
        have hmod := mod_lt r hB
        have hcut : cutLength total B n (r/B)=B := cutLength_of_lt (by omega)
        refine ⟨r/B,r%B,hdiv.le,by omega,?_,div_add_mod r B⟩
        exact ih r hr (by omega) (by omega) (div_add_mod r B)
      · obtain ⟨p',rfl⟩ := Nat.exists_eq_add_of_le (not_lt.mp hrc)
        exact ⟨c,p',le_refl c,by omega,ih _ hr hc (by omega) rfl,rfl⟩
    apply le_antisymm
    · -- the new one is an item, and none of those before
      obtain ⟨r,hr,hpos⟩ := h.item hc hp
      rw [← hpos]
      apply h.increasing.le _ hr
      by_contra hlt
      obtain ⟨d,p',hd,hp',hposr,hr'⟩ := hbef r (not_le.mp hlt)
      have := h.same_place hc (by omega) hp hp' (by rw [← hpos,hposr])
      obtain ⟨rfl,rfl⟩ := this
      omega
    · -- the item is handed out, and not before
      obtain ⟨d,hd,p',hp',hpos⟩ := h.handed (q := B*c+p) (by omega)
      rw [← hpos]
      have haft : B*c+p≤B*d+p' := by
        by_contra hlt
        have hdend := cutLength_end h.bound hd
        have hdc : d ≤ c := by
          by_contra hgt
          have : B*(c+1)≤B*d := Nat.mul_le_mul_left B (by omega)
          have hcut : cutLength total B n c=B := cutLength_of_lt (by omega)
          rw [mul_succ] at this
          omega
        have hprev := ih (B*d+p') (not_le.mp hlt) hd hp' rfl
        have := h.increasing (B*d+p') (B*c+p) (not_le.mp hlt) (by omega)
        omega
      obtain hlt | rfl | hgt := lt_trichotomy c d
      · exact (h.below_later hB hlt hd hp hp').le
      · have hlen := h.length_le hc
        have := h.increasing.le (p := p) (q := p') (by omega) (by omega)
        omega
      · have hcut : cutLength total B n d=B := cutLength_of_lt (by omega)
        have : B*(d+1)≤B*c := Nat.mul_le_mul_left B hgt
        rw [mul_succ] at this
        omega

theorem unmoved (hB : B=0) (htot : 0<total) (hn : 1<n) : S=0 := by
  subst hB
  obtain ⟨r,hr,hpos⟩ := h.item (c := n-1) (p := 0) (by omega) (by
    obtain ⟨k,rfl⟩ : ∃ k, n=k+1 := ⟨n-1,by omega⟩
    rw [Nat.add_sub_cancel,cutLength_last]
    omega)
  obtain ⟨c,hc,p,hp,hpos0⟩ := h.handed (q := 0) htot
  have hla : c+1=n := by
    by_contra hne
    rw [cutLength_of_lt (by omega)] at hp
    omega
  obtain rfl : c=n-1 := by omega
  have hlen := h.length_le hc
  have hle := h.increasing.le (zero_le p) (by omega)
  have hzr : (n-1)*S=0 := by omega
  obtain h0 | h0 := Nat.mul_eq_zero.mp hzr
  · omega
  · exact h0

theorem repeats (hn : 1<n) : Repeats pos total B S := by
  obtain rfl | hB := Nat.eq_zero_or_pos B
  · intro p hp
    rw [h.unmoved rfl (by omega) hn,Nat.zero_add,Nat.zero_add]
  intro p
  induction p using Nat.strong_induction_on with
  | _ p ih =>
    intro hp
    -- the last piece may be longer than the others
    by_cases hla : p<B*(n-1)
    · have hdiv : p/B<n-1 := Nat.div_lt_of_lt_mul hla
      have hmod := mod_lt p hB
      have hsta : B+p=B*(p/B+1)+p%B := by
        have := div_add_mod p B
        rw [mul_succ]
        omega
      have hle := le_cutLength h.bound (c := p/B+1) (by omega)
      have hcut : cutLength total B n (p/B)=B := cutLength_of_lt (by omega)
      have hhere := h.placed hB (c := p/B) (p := p%B) (by omega) (by omega)
      rw [div_add_mod] at hhere
      rw [hsta,h.placed hB (by omega) (by omega),hhere,succ_mul]
      omega
    · obtain ⟨k,rfl⟩ : ∃ k, n=k+2 := ⟨n-2,by omega⟩
      have hk : B*(k+1)≤p := by simpa using not_lt.mp hla
      rw [mul_succ] at hk
      obtain ⟨r,rfl⟩ := Nat.exists_eq_add_of_le hk
      have hnew := h.placed hB (c := k+1) (p := B+r) (by omega) (by
        rw [cutLength_last,mul_succ]
        omega)
      rw [mul_succ] at hnew
      obtain rfl | hkpos := Nat.eq_zero_or_pos k
      · simpa [Nat.add_assoc] using hnew
      · have hold := h.placed hB (c := k+1) (p := r) (by omega) (by
          rw [cutLength_last,mul_succ]
          omega)
        have hback := ih (B+r-B+0) (by
          have : 0<B*k := Nat.mul_pos hB hkpos
          omega) (by omega)
        simp only [Nat.add_sub_cancel_left,Nat.add_zero] at hback
        rw [mul_succ] at hold
        rw [show B+(B*k+B+r)=B*k+B+(B+r) by omega,hnew,hback,hold]
        omega

end CutUp

theorem partitions_iff_repeats (h : Increasing pos total) (hB : B*n≤total) (hn : 1<n) :
    Partitions ((List.range n).map (piece pos total B S n)) ((List.range total).map pos) ↔ Repeats pos total B S := by
  constructor
  · intro hpar
    exact CutUp.repeats ⟨h,hB,hpar⟩ hn
  · intro hrep
    apply Partitions.of_flatten _ h.nodup
    rw [← flatMap_def]
    exact hrep.flatMap hB (by omega)

end Increasing

section Counts

variable {count size B n : ℕ}

theorem sum_cutLength_div (hB : B*n ≤ count*size) (hn : 0<n) (hsi : 0 < size) :
    ((List.range n).map fun c => cutLength (count*size) B n c/size).sum=count ↔ n=1 ∨ size ∣ B := by
  obtain ⟨k,rfl⟩ : ∃ k, n=k+1 := ⟨n-1,by omega⟩
  have hinn : ((List.range k).map fun c => cutLength (count*size) B (k+1) c/size) =
      (List.range k).map fun _ => B/size := by
    apply map_congr_left
    intro c hc
    rw [mem_range] at hc
    rw [cutLength_of_lt (by omega)]
  have hsum : ((List.range (k+1)).map fun c => cutLength (count*size) B (k+1) c/size).sum =
      k*(B/size)+(count*size-B*k)/size := by
    rw [range_succ,map_append,List.sum_append,hinn]
    simp [cutLength_last]
  have hdiv := div_add_mod B size
  have hle : B*k ≤ count*size := (Nat.mul_le_mul_left B (le_succ k)).trans hB
  -- what the inner pieces lose is the rest of `B`, `k` times
  have hBk : B*k=size*(k*(B/size))+k*(B%size) := by
    calc B*k=(size*(B/size)+B%size)*k := by rw [hdiv]
      _ = size*(k*(B/size))+k*(B%size) := by ring
  have hrs : count*size-B*k=size*(count-k*(B/size))-k*(B%size) := by
    rw [Nat.mul_sub,hBk,mul_comm count size]
    omega
  have hfit : k*(B%size) ≤ size*(count-k*(B/size)) := by
    rw [Nat.mul_sub]
    rw [hBk,mul_comm count size] at hle
    omega
  have hwho : k*(B/size) ≤ count := by
    apply Nat.le_of_mul_le_mul_left _ hsi
    calc size*(k*(B/size))=size*(B/size)*k := by ring
      _ ≤ B*k := Nat.mul_le_mul_right k (mul_div_le B size)
      _ ≤ size*count := by rwa [mul_comm size]
  rw [hsum,hrs]
  constructor
  · intro h
    by_contra hne
    rw [not_or] at hne
    have hmod : 0<B%size := by
      apply pos_of_ne_zero
      intro h0
      exact hne.2 (dvd_of_mod_eq_zero h0)
    have hk : 0<k*(B%size) := mul_pos (by omega) hmod
    have hlt : size*(count-k*(B/size))-k*(B%size) < size*(count-k*(B/size)) := by
      exact sub_lt (hk.trans_le hfit) hk
    have := Nat.div_lt_of_lt_mul hlt
    omega
  · rintro (h | h)
    · obtain rfl : k=0 := by omega
      simp [Nat.mul_div_cancel_left _ hsi]
    · rw [mod_eq_zero_of_dvd h,mul_zero,Nat.sub_zero,Nat.mul_div_cancel_left _ hsi]
      omega

end Counts

end PAMI.Math
