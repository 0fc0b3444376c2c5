import PAMI.WorkQueue.SharedWorkQueue

namespace PAMI.WorkQueue

open PAMI.Math List Nat

namespace SharedSizes

variable (Q : SharedSizes)

theorem qsize_pos : 0<Q.qsize := by
  obtain ⟨k,-,hk⟩ := Q.qsize_pow
  rw [qsize,hk]
  exact Nat.two_pow_pos k

theorem worksize_pos : 0<Q.worksize := Nat.pos_of_mul_pos_left Q.qsize_pos

theorem offset_eq (bytes : ℕ) : SharedWorkQueue.toUnsigned bytes &&& Q.qmask = bytes%Q.qsize := by
  obtain ⟨k,hlt,hk⟩ := Q.qsize_pow
  have hdvd : 2^k ∣ 2^32 := Nat.pow_dvd_pow 2 hlt.le
  rw [qmask,qsize,hk,and_two_pow_sub_one_eq_mod,SharedWorkQueue.toUnsigned,mod_mod_of_dvd _ hdvd]

end SharedSizes

namespace SharedWorkQueue

variable {V : Type*} {Q : SharedSizes} {s : SharedWorkQueue V}

theorem toUnsigned_of_lt {b : ℕ} (h : b<2^32) : toUnsigned b = b := mod_eq_of_lt h

theorem bufferToProduce_eq (producer : ℕ) : s.bufferToProduce Q producer = s.producer producer%Q.qsize :=
  Q.offset_eq _

theorem bufferToConsume_eq (consumer : ℕ) : s.bufferToConsume Q consumer = s.consumer consumer%Q.qsize :=
  Q.offset_eq _

theorem foldl_min_spec (f : ℕ → ℕ) (a n : ℕ) :
    let m := (List.range n).foldl (fun m i => toUnsigned (min m (f (i+1)))) (toUnsigned a)
    m ≤ toUnsigned a ∧ (m=toUnsigned a ∨ ∃ j, 0<j ∧ j≤n ∧ m=f j) ∧ ∀ j, 0<j → j≤n → m≤f j := by
  induction n with
  | zero =>
    refine ⟨le_refl _,.inl rfl,?_⟩
    omega
  | succ n ih =>
    obtain ⟨hle,hmem,hall⟩ := ih
    have hlt : toUnsigned a<2^32 := mod_lt a (by decide)
    rw [range_succ,foldl_append,foldl_cons,foldl_nil]
    generalize (List.range n).foldl _ _ = m at *
    rw [toUnsigned_of_lt (b := min m (f (n+1))) (by omega)]
    refine ⟨by omega,?_,fun j hj hjn => ?_⟩
    · cases le_total m (f (n+1)) with
      | inl hmin =>
        rw [min_eq_left hmin]
        exact hmem.imp_right fun ⟨j,hj,hjn,heq⟩ => ⟨j,hj,by omega,heq⟩
      | inr hmin => exact .inr ⟨n+1,by omega,le_refl _,min_eq_right hmin⟩
    · obtain rfl | hjn : j=n+1 ∨ j≤n := by omega
      · exact min_le_right _ _
      · exact (min_le_left _ _).trans (hall j hj hjn)

theorem min_consumed_spec (h : s.consumer 0 < 2^32) :
    (∃ c<Q.consumers, min_consumed_bytes Q s = s.consumer c) ∧
      ∀ c<Q.consumers, min_consumed_bytes Q s ≤ s.consumer c := by
  have hpos := Q.consumers_pos
  obtain ⟨hle,hmem,hall⟩ := foldl_min_spec s.consumer (s.consumer 0) (Q.consumers-1)
  have hfir := toUnsigned_of_lt h
  constructor
  · obtain hmem | ⟨j,-,hj,hmem⟩ := hmem
    · exact ⟨0,hpos,hmem.trans hfir⟩
    · exact ⟨j,by omega,hmem⟩
  · intro c hc
    obtain rfl | hcpos : c=0 ∨ 0 < c := by omega
    · exact hle.trans_eq hfir
    · exact hall c hcpos (by omega)

theorem bytesAvailableToProduce_first (hp : s.producer 0 < 2^32) (hc : min_consumed_bytes Q s ≤ s.producer 0)
    (hle : s.producer 0 ≤ min_consumed_bytes Q s+Q.qsize) : s.bytesAvailableToProduce Q 0 =
      min (min (Q.qsize-s.producer 0%Q.qsize) (min_consumed_bytes Q s+Q.qsize-s.producer 0)) Q.worksize := by
  have hdist := mod_distance Q.qsize_pos hc hle
  have hp' : s.producer 0%Q.qsize<Q.qsize := mod_lt _ Q.qsize_pos
  have hc' : min_consumed_bytes Q s%Q.qsize<Q.qsize := mod_lt _ Q.qsize_pos
  have hoft := Q.offset_eq (s.producer 0)
  have hta : min_consumed_bytes Q s &&& Q.qmask = min_consumed_bytes Q s%Q.qsize := by
    rw [← Q.offset_eq,toUnsigned_of_lt (by omega)]
  rw [toUnsigned_of_lt hp] at hoft
  rw [bytesAvailableToProduce,if_pos rfl]
  simp only [hoft,hta,toUnsigned_of_lt hp]
  clear hoft hta
  split_ifs
  iterate 3 exact congrArg (min · Q.worksize) (by omega)
  rw [show min_consumed_bytes Q s+Q.qsize-s.producer 0=0 by omega,Nat.min_zero,Nat.zero_min]

theorem bytesAvailableToProduce_next {k : ℕ} (hle : s.producer (k+1) ≤ s.producer k) (hp : s.producer k < 2^32) :
    s.bytesAvailableToProduce Q (k+1) = min (s.producer k-s.producer (k+1)) Q.worksize := by
  have hdiff : toUnsigned ((s.producer k+2^64-s.producer (k+1))%2^64) = s.producer k-s.producer (k+1) := by
    rw [toUnsigned]
    omega
  rw [bytesAvailableToProduce,if_neg (succ_ne_zero k),Nat.add_sub_cancel]
  dsimp only
  rw [hdiff]

theorem bytesAvailableToConsume_eq {c : ℕ} (hc : s.consumer c ≤ s.producer (Q.producers-1))
    (hle : s.producer (Q.producers-1) ≤ s.consumer c+Q.qsize) (hp : s.producer (Q.producers-1) < 2^31) :
    s.bytesAvailableToConsume Q c = min (min (Q.qsize-s.consumer c%Q.qsize)
      (s.producer (Q.producers-1)-s.consumer c)) Q.worksize := by
  have hdist := mod_distance Q.qsize_pos hc hle
  have hp' : s.producer (Q.producers-1)%Q.qsize<Q.qsize := mod_lt _ Q.qsize_pos
  have hc' : s.consumer c%Q.qsize<Q.qsize := mod_lt _ Q.qsize_pos
  have hpro := toUnsigned_of_lt (hp.trans (by decide))
  have hcns := toUnsigned_of_lt (hc.trans_lt (hp.trans (by decide)))
  have hhe := Q.offset_eq (s.producer (Q.producers-1))
  have hta := Q.offset_eq (s.consumer c)
  rw [hpro] at hhe
  rw [hcns] at hta
  -- the counters have not wrapped around
  have hwra : ¬ (s.producer (Q.producers-1) < s.consumer c ∧
      toUnsigned (s.producer (Q.producers-1)+Q.qsize) > toUnsigned (s.consumer c+Q.qsize)) :=
    fun h => absurd h.1 (Nat.not_lt.mpr hc)
  rw [bytesAvailableToConsume]
  simp only [hpro,hcns,if_neg hwra,hhe,hta]
  clear hwra hhe hta hpro hcns
  split_ifs
  iterate 3 exact congrArg (min · Q.worksize) (by omega)
  rw [show s.producer (Q.producers-1)-s.consumer c=0 by omega,Nat.min_zero,Nat.zero_min]

end SharedWorkQueue

end PAMI.WorkQueue
