import PAMI.WorkQueue.SharedQueueOffers

namespace PAMI.WorkQueue

open PAMI.Math Function List Option

namespace SharedWorkQueue

variable {V : Type*} {Q : SharedSizes} {s s' : SharedWorkQueue V}

/-- Either the count of the first consumer fits in 32 bits or no consumer is behind it; and no two consumers are on different
sides of a wrap around of the whole counters. -/
structure Level (Q : SharedSizes) (s : SharedWorkQueue V) : Prop where
  side : ∀ c < Q.consumers, (s.consumed c).length / 2 ^ 64 = (s.consumed 0).length / 2 ^ 64
  first : s.consumer 0 < 2 ^ 32 ∨ ∀ c < Q.consumers, (s.consumed 0).length ≤ (s.consumed c).length

/-- A step after which the consumers are still level. -/
def KeepsLevel (Q : SharedSizes) (s : SharedWorkQueue V) (e : Event V) : Prop := ∀ s', step Q s e = some s' → Level Q s'

structure Within (Q : SharedSizes) (s : SharedWorkQueue V) : Prop where
  produce : ∀ c < Q.consumers, s.bytesAvailableToProduce Q 0 ≤ Q.qsize - (s.produced.length - (s.consumed c).length)
  consume : ∀ c < Q.consumers, s.bytesAvailableToConsume Q c ≤ s.produced.length - (s.consumed c).length

/-- The counters against what was really produced and consumed. -/
structure Counted (Q : SharedSizes) (s : SharedWorkQueue V) : Prop where
  producer : s.producer 0 = s.produced.length % 2 ^ 64
  consumer : ∀ c < Q.consumers, s.consumer c = (s.consumed c).length % 2 ^ 64
  filled : ∀ c < Q.consumers, (s.consumed c).length + s.ready c ≤ s.produced.length
  free : ∀ c < Q.consumers, s.produced.length + s.room 0 ≤ (s.consumed c).length + Q.qsize

theorem qsize_lt (Q : SharedSizes) : Q.qsize<2^32 := by
  obtain ⟨k,hlt,hk⟩ := Q.qsize_pow
  exact hk.trans_lt (Nat.pow_lt_pow_right (by decide) hlt)

theorem counter_mod (Q : SharedSizes) (n : ℕ) : n%2^64%Q.qsize=n%Q.qsize := by
  obtain ⟨k,hlt,hk⟩ := Q.qsize_pow
  rw [SharedSizes.qsize,hk,Nat.mod_mod_of_dvd _ (Nat.pow_dvd_pow 2 (by omega))]

theorem Counted.min_consumed (h : Counted Q s) (hlev : Level Q s) :
    ∃ c<Q.consumers, min_consumed_bytes Q s = toUnsigned (s.consumer c) ∧
      ∀ c'<Q.consumers, (s.consumed c).length≤(s.consumed c').length := by
  have hpos := Q.consumers_pos
  have hord : ∀ c<Q.consumers, ∀ c'<Q.consumers, s.consumer c ≤ s.consumer c' →
      (s.consumed c).length≤(s.consumed c').length := by
    intro c hc c' hc' hle
    have hside := hlev.side c hc
    have hside' := hlev.side c' hc'
    rw [h.consumer c hc,h.consumer c' hc'] at hle
    omega
  by_cases hlt : s.consumer 0<2^32
  · obtain ⟨⟨c,hc,hmin⟩,hle⟩ := min_consumed_spec (Q := Q) hlt
    refine ⟨c,hc,?_,fun c' hc' => hord c hc c' hc' (hmin ▸ hle c' hc')⟩
    have hfir := hle 0 hpos
    rw [hmin,toUnsigned_of_lt (by omega)]
  · have hfir := hlev.first.resolve_left hlt
    refine ⟨0,hpos,?_,hfir⟩
    obtain ⟨-,hmem | ⟨j,hj,hjn,hmem⟩,hall⟩ := foldl_min_spec s.consumer (s.consumer 0) (Q.consumers-1)
    · exact hmem
    · -- The counters of the others are not less than that of the first one, which does not fit.
      have hcut : toUnsigned (s.consumer 0)<2^32 := Nat.mod_lt _ (by decide)
      have hle := hfir j (by omega)
      have hside := hlev.side j (by omega)
      have hj' := h.consumer j (by omega)
      have h0 := h.consumer 0 hpos
      have hmin := (foldl_min_spec s.consumer (s.consumer 0) (Q.consumers-1)).1
      omega

theorem Counted.produce (h : Counted Q s) (hlev : Level Q s) {c : ℕ} (hc : c<Q.consumers) :
    s.produced.length+s.bytesAvailableToProduce Q 0 ≤ (s.consumed c).length+Q.qsize := by
  obtain ⟨m,hm,hmin,hslo⟩ := h.min_consumed hlev
  have hle := hslo c hc
  have hfil := h.filled m hm
  have hfr := h.free m hm
  have hdist := mod_distance Q.qsize_pos (show (s.consumed m).length ≤ s.produced.length by omega) (by omega)
  have hhe := Q.offset_eq (s.producer 0)
  have hta := Q.offset_eq (s.consumer m)
  have hsm : toUnsigned (s.producer 0) = toUnsigned (s.consumer m) → s.produced.length=(s.consumed m).length := by
    have hqsi := qsize_lt Q
    rw [h.producer,h.consumer m hm,toUnsigned,toUnsigned]
    omega
  have hlt := Nat.mod_lt s.produced.length Q.qsize_pos
  have hlt' := Nat.mod_lt (s.consumed m).length Q.qsize_pos
  rw [h.producer,counter_mod,← h.producer] at hhe
  rw [h.consumer m hm,counter_mod,← h.consumer m hm] at hta
  rw [bytesAvailableToProduce,if_pos rfl]
  simp only [hmin,hhe,hta]
  clear hhe hta
  rcases hdist with ⟨hmod,heq⟩ | ⟨hin,hd⟩ | ⟨hout,hd⟩
  · rw [if_neg (by omega),if_neg (by omega)]
    split_ifs with h3
    · have := hsm h3
      omega
    · omega
  · rw [if_pos hin]
    omega
  · rw [if_neg (by omega),if_pos hout]
    omega

theorem Counted.consume (h : Counted Q s) (hone : Q.producers=1) {c : ℕ} (hc : c<Q.consumers) :
    (s.consumed c).length+s.bytesAvailableToConsume Q c ≤ s.produced.length := by
  have hfil := h.filled c hc
  have hfr := h.free c hc
  have hdist := mod_distance Q.qsize_pos (show (s.consumed c).length ≤ s.produced.length by omega) (by omega)
  have hhe := Q.offset_eq (s.producer 0)
  have hta := Q.offset_eq (s.consumer c)
  have hlt := Nat.mod_lt s.produced.length Q.qsize_pos
  have hlt' := Nat.mod_lt (s.consumed c).length Q.qsize_pos
  rw [h.producer,counter_mod,← h.producer] at hhe
  rw [h.consumer c hc,counter_mod,← h.consumer c hc] at hta
  -- Moved on by the size of the buffer, a counter has the same offset.
  have hmov (bytes : ℕ) : toUnsigned (toUnsigned bytes+Q.qsize) &&& Q.qmask = toUnsigned bytes &&& Q.qmask := by
    rw [Q.offset_eq,Nat.add_mod_right,Q.offset_eq]
    obtain ⟨k,hlt,hk⟩ := Q.qsize_pow
    rw [SharedSizes.qsize,hk,toUnsigned,Nat.mod_mod_of_dvd _ (Nat.pow_dvd_pow 2 (by omega))]
  have hone' : Q.producers-1=0 := by omega
  rw [bytesAvailableToConsume,hone']
  by_cases heq : s.produced.length=(s.consumed c).length
  · have hcou : s.producer 0 = s.consumer c := by rw [h.producer,h.consumer c hc,heq]
    simp [hcou,heq]
  · -- What is offered, whichever way the last comparison of the counters goes.
    have hoff (a b : ℕ) : (s.consumed c).length+
        (if s.produced.length%Q.qsize > (s.consumed c).length%Q.qsize then
          min (s.produced.length%Q.qsize-(s.consumed c).length%Q.qsize) Q.worksize
        else if s.produced.length%Q.qsize<(s.consumed c).length%Q.qsize then
          min (Q.qsize-(s.consumed c).length%Q.qsize) Q.worksize
        else if a > b then min (Q.qsize-(s.consumed c).length%Q.qsize) Q.worksize else 0) ≤ s.produced.length := by
      clear hhe hta
      rcases hdist with ⟨hmod,hpc⟩ | ⟨hin,hd⟩ | ⟨hout,hd⟩
      · have hpc' := hpc.resolve_left heq
        rw [if_neg (by omega),if_neg (by omega)]
        split_ifs <;> omega
      · rw [if_pos hin]
        omega
      · rw [if_neg (by omega),if_pos hout]
        omega
    by_cases hwra : toUnsigned (s.producer 0) < toUnsigned (s.consumer c) ∧
        toUnsigned (toUnsigned (s.producer 0)+Q.qsize) > toUnsigned (toUnsigned (s.consumer c)+Q.qsize)
    · simp only [if_pos hwra,hmov,hhe,hta]
      exact hoff _ _
    · simp only [if_neg hwra,hhe,hta]
      exact hoff _ _

theorem Counted.within (h : Counted Q s) (hone : Q.producers=1) (hlev : Level Q s) : Within Q s := by
  constructor
  · intro c hc
    have hprd := h.produce hlev hc
    have hfil := h.filled c hc
    omega
  · intro c hc
    have hcon := h.consume hone hc
    omega

theorem Counted.start (Q : SharedSizes) (buffer : ℕ → V) : Counted Q (start buffer) where
  producer := rfl
  consumer _ _ := rfl
  filled _ _ := Nat.le_refl 0
  free _ _ := Nat.zero_le _

theorem Counted.step (h : Counted Q s) (hone : Q.producers=1) (hlev : Level Q s) {e : Event V}
    (hs : step Q s e = some s') : Counted Q s' := by
  cases e with
  | bytesAvailableToProduce producer =>
    obtain ⟨hlt,hs⟩ := Option.ite_none_right_eq_some.mp hs
    obtain rfl := some.inj hs
    obtain rfl : producer=0 := by omega
    exact { h with free := fun c hc => by simpa using h.produce hlev hc }
  | write producer i byte =>
    obtain ⟨-,hs⟩ := Option.ite_none_right_eq_some.mp hs
    obtain rfl := some.inj hs
    exact { h with }
  | produceBytes producer bytes =>
    obtain ⟨hlt,hs⟩ := Option.ite_none_right_eq_some.mp hs
    obtain rfl := some.inj hs
    obtain rfl : producer=0 := by omega
    have hla : Q.producers-1=0 := by omega
    refine { h with producer := ?_, filled := fun c hc => ?_, free := fun c hc => ?_ }
    · simp [hla,h.producer]
    · have hfil := h.filled c hc
      simp only [hla,if_true,length_append,length_map,length_range]
      omega
    · have hfr := h.free c hc
      simp only [hla,if_true,update_self,length_append,length_map,length_range]
      omega
  | bytesAvailableToConsume consumer =>
    obtain ⟨-,hs⟩ := Option.ite_none_right_eq_some.mp hs
    obtain rfl := some.inj hs
    refine { h with filled := fun c hc => ?_ }
    by_cases heq : c=consumer
    · subst heq
      simpa using h.consume hone hc
    · simpa [heq] using h.filled c hc
  | read consumer =>
    obtain ⟨-,hs⟩ := Option.ite_none_right_eq_some.mp hs
    obtain rfl := some.inj hs
    exact { h with }
  | consumeBytes consumer =>
    obtain ⟨⟨-,hle⟩,hs⟩ := Option.ite_none_right_eq_some.mp hs
    obtain rfl := some.inj hs
    refine { h with consumer := fun c hc => ?_, filled := fun c hc => ?_, free := fun c hc => ?_ }
    all_goals
      by_cases heq : c=consumer
      · subst heq
        have hcnt := h.consumer c hc
        have hfil := h.filled c hc
        have hfr := h.free c hc
        simp only [update_self,length_append]
        omega
      · simp only [update_of_ne heq]
        simp [h.consumer c hc,h.filled c hc,h.free c hc]

/-- In a run with one producer in which the consumers stay level, whatever its length, nobody is offered too much. -/
theorem within_of_run {buffer : ℕ → V} (hone : Q.producers = 1) (h : Run (SharedWorkQueue.step Q) (KeepsLevel Q) (start buffer) s) :
    Within Q s := by
  have hlev : Level Q (SharedWorkQueue.start buffer) := ⟨fun _ _ => rfl,.inl (Nat.two_pow_pos 32)⟩
  obtain ⟨hctd,hlev⟩ := h.invariant (P := fun s => Counted Q s ∧ Level Q s) ⟨Counted.start Q buffer,hlev⟩
    fun _ _ _ hinv hok hs => ⟨hinv.1.step hone hinv.2 hs,hok _ hs⟩
  exact hctd.within hone hlev

section Concrete

variable {p k c : ℕ} {n : ℕ → ℕ} {ok : SharedWorkQueue V → Event V → Prop}

/-- A step is in order if it leaves these counts of the consumers. -/
def Allows (Q : SharedSizes) (ok : SharedWorkQueue V → Event V → Prop) (n : ℕ → ℕ) : Prop :=
  ∀ s e s', step Q s e = some s' → (∀ c, (s'.consumed c).length = n c) → s'.consumer = n → ok s e

theorem allows_keepsLevel (hside : ∀ c<Q.consumers, n c/2^64 = n 0/2^64)
    (hfirst : n 0 < 2^32 ∨ ∀ c<Q.consumers, n 0 ≤ n c) : Allows (V := V) Q (KeepsLevel Q) n := by
  intro s e s1 hs1 hctd hcon s' hs'
  obtain rfl := some.inj (hs1.symm.trans hs')
  constructor
  · simpa only [hctd] using hside
  · simpa only [hctd,hcon] using hfirst

/-- How much was produced and consumed, in less than 2^64 bytes, when no consumer is reading. -/
structure Counts (s : SharedWorkQueue V) (p : ℕ) (n : ℕ → ℕ) : Prop where
  produced : s.produced.length = p
  producer : s.producer 0 = p
  consumed : ∀ c, (s.consumed c).length = n c
  consumer : s.consumer = n
  reading : ∀ c, s.reading c = []

/-- A queue with these counters. -/
def counters (p : ℕ) (n : ℕ → ℕ) : SharedWorkQueue ℕ := { start fun _ => 0 with producer := fun _ => p, consumer := n }

theorem Counts.produce (h : Counts s p n) (hone : Q.producers=1) (hall : Allows Q ok n)
    (hk : (counters p n).bytesAvailableToProduce Q 0 = k) (hlt : p+k<2^64) :
    ∃ s', Run (step Q) ok s s' ∧ Counts s' (p+k) n := by
  have hava : s.bytesAvailableToProduce Q 0=k := by
    rw [← hk,bytesAvailableToProduce,min_consumed_bytes,h.consumer,h.producer]
    rfl
  have hask : step Q s (.bytesAvailableToProduce 0) = some { s with room := update s.room 0 k } := by
    simp [step,hone,hava]
  have hprd : step Q { s with room := update s.room 0 k } (.produceBytes 0 k) = some _ :=
    if_pos ⟨by omega,(update_self 0 k s.room).ge⟩
  refine ⟨_,(Run.refl.step (hall _ _ _ hask h.consumed h.consumer) hask).step
    (hall _ _ _ hprd h.consumed h.consumer) hprd,?_,?_,h.consumed,h.consumer,h.reading⟩
  · simp [hone,h.produced]
  · simp only [update_self,h.producer,Nat.mod_eq_of_lt hlt]

theorem exists_read (h : Counts s p n) (hall : Allows Q ok n) (hc : c<Q.consumers)
    (hk : s.bytesAvailableToConsume Q c = k) {i : ℕ} (hi : i≤k) : ∃ l, l.length=i ∧ Run (step Q) ok s
      { s with ready := update s.ready c k, reading := update s.reading c l } := by
  induction i with
  | zero =>
    refine ⟨[],rfl,?_⟩
    have hask : step Q s (.bytesAvailableToConsume c) = some _ := if_pos hc
    rw [← h.reading c,update_eq_self,← hk]
    exact Run.refl.step (hall _ _ _ hask h.consumed h.consumer) hask
  | succ i ih =>
    obtain ⟨l,hl,hrun⟩ := ih (by omega)
    have hread : step Q { s with ready := update s.ready c k, reading := update s.reading c l } (.read c) = some _ :=
      if_pos ⟨hc,by simp only [update_self,hl]; exact hi⟩
    have hnx := hrun.step (hall _ _ _ hread h.consumed h.consumer) hread
    simp only [update_idem,update_self] at hnx
    exact ⟨_,by simp [hl],hnx⟩

theorem Counts.consume (h : Counts s p n) (hone : Q.producers=1) (hc : c<Q.consumers) (hall : Allows Q ok n)
    (hk : (counters p n).bytesAvailableToConsume Q c = k) (hlt : n c+k < 2^64)
    (hall' : Allows Q ok (update n c (n c+k))) :
    ∃ s', Run (step Q) ok s s' ∧ Counts s' p (update n c (n c+k)) := by
  have hava : s.bytesAvailableToConsume Q c=k := by
    rw [← hk,bytesAvailableToConsume,h.consumer,hone,h.producer]
    rw [bytesAvailableToConsume,hone]
    rfl
  obtain ⟨l,hl,hrun⟩ := exists_read h hall hc hava (le_refl k)
  have hcon : step Q { s with ready := update s.ready c k, reading := update s.reading c l } (.consumeBytes c) = some _ :=
    if_pos ⟨hc,by simp [hl]⟩
  have hctd : ∀ c', (update s.consumed c (s.consumed c ++ update s.reading c l c) c').length=update n c (n c+k) c' := by
    intro c'
    by_cases heq : c'=c
    · subst heq
      simp [h.consumed,hl]
    · simp [heq,h.consumed]
  have hcsr : update s.consumer c ((s.consumer c+(update s.reading c l c).length)%2^64) = update n c (n c+k) := by
    rw [update_self,h.consumer,hl,Nat.mod_eq_of_lt hlt]
  refine ⟨_,hrun.step (hall' _ _ _ hcon hctd hcsr) hcon,h.produced,h.producer,hctd,hcsr,fun c' => ?_⟩
  by_cases heq : c'=c
  · simp [heq]
  · simp [heq,h.reading]

/-- One work unit of 2^31 bytes, one producer and two consumers. -/
def oneUnit : SharedSizes := ⟨1, 2 ^ 31, 1, 2, ⟨31, by decide, rfl⟩, Nat.one_pos, Nat.two_pos⟩

/-- The counters pass 2^32, the first consumer behind the other one each time. -/
theorem within_of_run_wrapped : ∃ s : SharedWorkQueue ℕ, s.producer 0 = 3 * 2 ^ 31 ∧ s.consumer 0 = 2 ^ 32 ∧
    s.consumer 1 = 2 ^ 32 ∧ Within oneUnit s := by
  have hsta : Counts (start fun _ => 0) 0 fun _ => 0 := ⟨rfl,rfl,fun _ => rfl,rfl,fun _ => rfl⟩
  have hall {n : ℕ → ℕ} (hn : (∀ c<2, n c/2^64 = n 0/2^64) ∧ (n 0<2^32 ∨ ∀ c<2, n 0 ≤ n c)) :
      Allows (V := ℕ) oneUnit (KeepsLevel oneUnit) n := allows_keepsLevel hn.1 hn.2
  obtain ⟨s1,r1,h1⟩ := hsta.produce (Q := oneUnit) (k := 2 ^ 31) rfl (hall (by decide)) (by decide) (by decide)
  obtain ⟨s2,r2,h2⟩ := h1.consume (Q := oneUnit) (k := 2 ^ 31) (c := 1) rfl (by decide) (hall (by decide)) (by decide)
    (by decide) (hall (by decide))
  obtain ⟨s3,r3,h3⟩ := h2.consume (Q := oneUnit) (k := 2 ^ 31) (c := 0) rfl (by decide) (hall (by decide)) (by decide)
    (by decide) (hall (by decide))
  obtain ⟨s4,r4,h4⟩ := h3.produce (Q := oneUnit) (k := 2 ^ 31) rfl (hall (by decide)) (by decide) (by decide)
  obtain ⟨s5,r5,h5⟩ := h4.consume (Q := oneUnit) (k := 2 ^ 31) (c := 1) rfl (by decide) (hall (by decide)) (by decide)
    (by decide) (hall (by decide))
  obtain ⟨s6,r6,h6⟩ := h5.consume (Q := oneUnit) (k := 2 ^ 31) (c := 0) rfl (by decide) (hall (by decide)) (by decide)
    (by decide) (hall (by decide))
  obtain ⟨s7,r7,h7⟩ := h6.produce (Q := oneUnit) (k := 2 ^ 31) rfl (hall (by decide)) (by decide) (by decide)
  refine ⟨s7,h7.producer,congrFun h7.consumer 0,congrFun h7.consumer 1,?_⟩
  exact within_of_run rfl ((((((r1.trans r2).trans r3).trans r4).trans r5).trans r6).trans r7)

/-- After 2^32 bytes, of which one consumer has consumed all and the other one the first half. -/
theorem not_within : ∃ s, Run (step oneUnit) (fun _ _ => True) (start fun _ => 0) s ∧ ¬ Within oneUnit s := by
  have hsta : Counts (start fun _ => 0) 0 fun _ => 0 := ⟨rfl,rfl,fun _ => rfl,rfl,fun _ => rfl⟩
  have hall {n : ℕ → ℕ} : Allows (V := ℕ) oneUnit (fun _ _ => True) n := fun _ _ _ _ _ _ => trivial
  obtain ⟨s1,r1,h1⟩ := hsta.produce (Q := oneUnit) (k := 2 ^ 31) rfl hall (by decide) (by decide)
  obtain ⟨s2,r2,h2⟩ := h1.consume (Q := oneUnit) (k := 2 ^ 31) (c := 0) rfl (by decide) hall (by decide) (by decide) hall
  obtain ⟨s3,r3,h3⟩ := h2.consume (Q := oneUnit) (k := 2 ^ 31) (c := 1) rfl (by decide) hall (by decide) (by decide) hall
  obtain ⟨s4,r4,h4⟩ := h3.produce (Q := oneUnit) (k := 2 ^ 31) rfl hall (by decide) (by decide)
  obtain ⟨s5,r5,h5⟩ := h4.consume (Q := oneUnit) (k := 2 ^ 31) (c := 0) rfl (by decide) hall (by decide) (by decide) hall
  refine ⟨s5,(((r1.trans r2).trans r3).trans r4).trans r5,fun h => ?_⟩
  have hava : s5.bytesAvailableToProduce oneUnit 0 = 2 ^ 31 := by
    rw [bytesAvailableToProduce,min_consumed_bytes,h5.consumer,h5.producer]
    decide
  have hprd := h.produce 1 (by decide)
  rw [hava,h5.produced,h5.consumed] at hprd
  contradiction

end Concrete

end SharedWorkQueue

end PAMI.WorkQueue
