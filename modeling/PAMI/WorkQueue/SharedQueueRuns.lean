import PAMI.WorkQueue.SharedQueueOffers

namespace PAMI.WorkQueue.SharedWorkQueue

open PAMI.Math Function List Option Nat

variable {V : Type*} {Q : SharedSizes} {s s' : SharedWorkQueue V}

def Clear (Q : SharedSizes) (s : SharedWorkQueue V) (k : ℕ) : Prop :=
  s.producer (k + 1) % Q.qsize + Q.worksize ≤ Q.qsize ∨
    s.producer k ≤ s.producer (k + 1) - s.producer (k + 1) % Q.qsize + Q.qsize

instance (k : ℕ) : Decidable (Clear Q s k) := inferInstanceAs (Decidable (_ ∨ _))

/-- A run of fewer than 2^31 bytes, in which a rewriting producer asks only when the buffer is clear. -/
def Condition (Q : SharedSizes) (s : SharedWorkQueue V) : Event V → Prop
  | .bytesAvailableToProduce (k + 1) => Clear Q s k
  | .produceBytes 0 bytes => s.producer 0 + bytes < 2 ^ 31
  | _ => True

instance : ∀ s e, Decidable (Condition (V := V) Q s e)
  | _, .bytesAvailableToProduce 0 => .isTrue trivial
  | s, .bytesAvailableToProduce (k + 1) => inferInstanceAs (Decidable (Clear Q s k))
  | _, .write .. => .isTrue trivial
  | s, .produceBytes 0 bytes => inferInstanceAs (Decidable (s.producer 0 + bytes < 2 ^ 31))
  | _, .produceBytes (_ + 1) _ => .isTrue trivial
  | _, .bytesAvailableToConsume _ => .isTrue trivial
  | _, .read _ => .isTrue trivial
  | _, .consumeBytes _ => .isTrue trivial

/-- The producers follow each other and the consumers the last of them, at most a buffer behind; what they were offered is
theirs; and the buffer holds what the last producer has produced and a consumer has not yet consumed. -/
structure Inv (Q : SharedSizes) (s : SharedWorkQueue V) : Prop where
  bound : s.producer 0 < 2 ^ 31
  chain : ∀ k, k + 1 < Q.producers → s.producer (k + 1) + s.room (k + 1) ≤ s.producer k
  free : ∀ c < Q.consumers, s.producer 0 + s.room 0 ≤ s.consumer c + Q.qsize
  room_end : ∀ k < Q.producers, s.producer k % Q.qsize + s.room k ≤ Q.qsize
  filled : ∀ c < Q.consumers, s.consumer c + s.ready c ≤ s.producer (Q.producers - 1)
  ready_end : ∀ c < Q.consumers, s.consumer c % Q.qsize + s.ready c ≤ Q.qsize
  reading_filled : ∀ c < Q.consumers, s.consumer c + (s.reading c).length ≤ s.producer (Q.producers - 1)
  produced_length : s.produced.length = s.producer (Q.producers - 1)
  stored : ∀ c < Q.consumers, Stored s.buffer Q.qsize (s.consumer c) s.produced
  reading : ∀ c < Q.consumers, s.reading c = (s.produced.drop (s.consumer c)).take (s.reading c).length
  consumed : ∀ c < Q.consumers, s.consumed c = s.produced.take (s.consumer c)

namespace Inv

theorem start (Q : SharedSizes) (buffer : ℕ → V) : Inv Q (SharedWorkQueue.start buffer) where
  bound := Nat.two_pow_pos 31
  chain _ _ := le_refl 0
  free _ _ := zero_le _
  room_end _ _ := (zero_mod Q.qsize).trans_le (zero_le _)
  filled _ _ := le_refl 0
  ready_end _ _ := (zero_mod Q.qsize).trans_le (zero_le _)
  reading_filled _ _ := le_refl 0
  produced_length := rfl
  stored _ _ _ _ x hx := absurd hx (some_ne_none x).symm
  reading _ _ := rfl
  consumed _ _ := rfl

variable (h : Inv Q s) {k : ℕ}

include h

theorem producer_le {j : ℕ} (hjk : j≤k) (hk : k<Q.producers) : s.producer k ≤ s.producer j := by
  induction k, hjk using le_induction with
  | base => exact le_refl _
  | succ k _ ih =>
    have hcha := h.chain k hk
    exact (by omega : s.producer (k+1) ≤ s.producer k).trans (ih (by omega))

theorem producer_lt (hk : k<Q.producers) : s.producer k < 2^31 := (h.producer_le (zero_le k) hk).trans_lt h.bound

theorem last_le (hk : k<Q.producers) : s.producer (Q.producers-1) ≤ s.producer k :=
  h.producer_le (le_sub_one_of_lt hk) (by omega)

section

variable {c : ℕ} (hc : c < Q.consumers)
include hc

theorem room_free (hk : k<Q.producers) : s.producer k+s.room k ≤ s.consumer c+Q.qsize := by
  cases k with
  | zero => exact h.free c hc
  | succ k =>
    have hcha := h.chain k hk
    have hfr := h.free c hc
    have hle := h.producer_le (zero_le k) (by omega)
    omega

theorem consumer_lt : s.consumer c < 2^31 := by
  have hfil := h.filled c hc
  have hlt := h.producer_lt (k := Q.producers-1) (sub_one_lt_of_lt Q.producers_pos)
  omega

omit hc in
theorem min_consumed : (∃ c<Q.consumers, min_consumed_bytes Q s = s.consumer c) ∧
    ∀ c<Q.consumers, min_consumed_bytes Q s ≤ s.consumer c :=
  min_consumed_spec ((h.consumer_lt Q.consumers_pos).trans (by decide))

omit hc in
theorem available_first : s.bytesAvailableToProduce Q 0 =
    min (min (Q.qsize-s.producer 0%Q.qsize) (min_consumed_bytes Q s+Q.qsize-s.producer 0)) Q.worksize := by
  obtain ⟨⟨c,hc,heq⟩,hle⟩ := h.min_consumed
  have hfil := h.filled c hc
  have hfr := h.free c hc
  have hla := h.last_le Q.producers_pos
  apply bytesAvailableToProduce_first
  · exact h.bound.trans (by decide)
  · omega
  · omega

omit hc in
theorem available_next (hk : k+1<Q.producers) :
    s.bytesAvailableToProduce Q (k+1) = min (s.producer k-s.producer (k+1)) Q.worksize :=
  bytesAvailableToProduce_next (h.producer_le (Nat.le_add_right k 1) hk) ((h.producer_lt (by omega)).trans (by decide))

theorem available_consumer : s.bytesAvailableToConsume Q c =
    min (min (Q.qsize-s.consumer c%Q.qsize) (s.producer (Q.producers-1)-s.consumer c)) Q.worksize := by
  have hfil := h.filled c hc
  have hfr := h.free c hc
  have hla := h.last_le Q.producers_pos
  apply bytesAvailableToConsume_eq
  · omega
  · omega
  · exact h.producer_lt (sub_one_lt_of_lt Q.producers_pos)

omit hc in
theorem bytesAvailableToProduce (hcle : ∀ j, k=j+1 → Clear Q s j) :
    Inv Q { s with room := update s.room k (s.bytesAvailableToProduce Q k) } := by
  have hpos := Q.qsize_pos
  have hmod : ∀ k, s.producer k%Q.qsize<Q.qsize := fun k => mod_lt _ hpos
  have hle : ∀ k, s.producer k%Q.qsize ≤ s.producer k := fun k => mod_le _ _
  refine { h with chain := ?_, free := ?_, room_end := ?_ }
  · intro j hj
    dsimp only
    by_cases hjk : j+1=k
    · rw [hjk,update_self,← hjk,h.available_next hj]
      have hcha := h.producer_le (Nat.le_add_right j 1) hj
      omega
    · rw [update_of_ne hjk]
      exact h.chain j hj
  · intro c hc
    dsimp only
    by_cases h0 : 0=k
    · rw [← h0,update_self,h.available_first]
      have hmin := h.min_consumed.2 c hc
      have hfr := h.free c hc
      omega
    · rw [update_of_ne h0]
      exact h.free c hc
  · intro j hj
    dsimp only
    by_cases hjk : j=k
    · subst hjk
      rw [update_self]
      have hlt := hmod j
      have hle := hle j
      cases j with
      | zero =>
        rw [h.available_first]
        omega
      | succ j =>
        have hwide := hcle j rfl
        rw [Clear] at hwide
        rw [h.available_next hj]
        omega
    · rw [update_of_ne hjk]
      exact h.room_end j hj

theorem bytesAvailableToConsume :
    Inv Q { s with ready := update s.ready c (s.bytesAvailableToConsume Q c) } := by
  have hlt : s.consumer c%Q.qsize<Q.qsize := mod_lt _ Q.qsize_pos
  have hava := h.available_consumer hc
  have hfil := h.filled c hc
  refine { h with filled := ?_, ready_end := ?_ }
  · intro c' hc'
    dsimp only
    by_cases heq : c'=c
    · rw [heq,update_self]
      omega
    · rw [update_of_ne heq]
      exact h.filled c' hc'
  · intro c' hc'
    dsimp only
    by_cases heq : c'=c
    · rw [heq,update_self]
      omega
    · rw [update_of_ne heq]
      exact h.ready_end c' hc'

omit hc in
theorem write {i : ℕ} {byte : V} (hk : k<Q.producers) (hi : i < s.room k) :
    Inv Q { s with buffer := update s.buffer (s.bufferToProduce Q k+i) byte } := by
  refine { h with stored := ?_ }
  intro c hc x (hx : s.consumer c≤x) v hv
  have hlen : x < s.produced.length := (List.getElem?_eq_some_iff.mp hv).1
  have hend := h.room_end k hk
  have hfr := h.room_free hc hk
  have hla := h.last_le hk
  have hpro := h.produced_length
  have hpla : (s.producer k+i)%Q.qsize=s.producer k%Q.qsize+i := mod_add_of_lt (by omega)
  have hne : x%Q.qsize≠(s.producer k+i)%Q.qsize := mod_ne_mod (by omega) (by omega)
  dsimp only
  rw [bufferToProduce_eq,← hpla,update_of_ne hne]
  exact h.stored c hc x hx v hv

omit hc in
theorem produceBytes {n : ℕ} (hk : k<Q.producers) (hn : n ≤ s.room k)
    (hbou : k=0 → s.producer 0+n < 2^31) (hs : s.step Q (.produceBytes k n) = some s') :
    Inv Q s' := by
  have hlt := h.producer_lt hk
  have hend := h.room_end k hk
  have hla := h.last_le hk
  have hlen := h.produced_length
  have hcnt : (s.producer k+n)%2^64=s.producer k+n := by
    apply mod_eq_of_lt
    cases k with
    | zero => exact (hbou rfl).trans (by decide)
    | succ k =>
      have hcha := h.chain k hk
      have hbef := h.producer_lt (lt_of_succ_lt hk)
      omega
  rw [step,if_pos ⟨hk,hn⟩,hcnt] at hs
  obtain rfl := some.inj hs
  have hgro : ∀ j, s.producer j ≤ update s.producer k (s.producer k+n) j := by
    intro j
    by_cases hj : j=k
    · rw [hj,update_self]
      exact Nat.le_add_right _ _
    · rw [update_of_ne hj]
  have htot : ∀ j, update s.producer k (s.producer k+n) j+update s.room k (s.room k-n) j =
      s.producer j+s.room j := by
    intro j
    by_cases hj : j=k
    · rw [hj,update_self,update_self]
      omega
    · rw [update_of_ne hj,update_of_ne hj]
  have hlon : ∃ new, (if k=Q.producers-1 then
        s.produced ++ (List.range n).map fun i => s.buffer (s.bufferToProduce Q k+i) else s.produced) =
      s.produced ++ new ∧ s.produced.length+new.length=update s.producer k (s.producer k+n) (Q.producers-1) ∧
        ∀ i v, new[i]? = some v → s.buffer ((s.produced.length+i)%Q.qsize)=v := by
    by_cases hk' : k=Q.producers-1
    · refine ⟨_,if_pos hk',?_,?_⟩
      · rw [length_map,length_range,← hk',update_self,hlen,hk']
      · intro i v hv
        obtain ⟨hi,rfl⟩ := List.getElem?_eq_some_iff.mp hv
        rw [length_map,length_range] at hi
        rw [getElem_map,getElem_range,bufferToProduce_eq,hlen,← hk',mod_add_of_lt (by omega)]
    · refine ⟨[],(if_neg hk').trans (append_nil _).symm,?_,?_⟩
      · rw [length_nil,update_of_ne (Ne.symm hk'),hlen]
        rfl
      · intro i v hv
        exact absurd hv (some_ne_none v).symm
  obtain ⟨new,hnew,hlng,hbyt⟩ := hlon
  rw [hnew]
  constructor
  · by_cases h0 : k=0
    · subst h0
      change update s.producer 0 (s.producer 0+n) 0<2^31
      rw [update_self]
      exact hbou rfl
    · change update s.producer k (s.producer k+n) 0<2^31
      rw [update_of_ne (Ne.symm h0)]
      exact h.bound
  · intro j hj
    exact (htot (j+1)).trans_le ((h.chain j hj).trans (hgro j))
  · intro c hc
    exact (htot 0).trans_le (h.free c hc)
  · intro j hj
    dsimp only
    by_cases hjk : j=k
    · rw [hjk,update_self,update_self]
      cases lt_or_ge (s.producer k%Q.qsize+n) Q.qsize with
      | inl hin =>
        rw [mod_add_of_lt hin]
        omega
      | inr hout =>
        have hmod := mod_lt (s.producer k+n) Q.qsize_pos
        omega
    · rw [update_of_ne hjk,update_of_ne hjk]
      exact h.room_end j hj
  · intro c hc
    exact (h.filled c hc).trans (hgro _)
  · exact h.ready_end
  · intro c hc
    exact (h.reading_filled c hc).trans (hgro _)
  · exact length_append.trans hlng
  · intro c hc i hi v hv
    dsimp only at hv ⊢
    cases lt_or_ge i s.produced.length with
    | inl hold =>
      rw [List.getElem?_append_left hold] at hv
      exact h.stored c hc i hi v hv
    | inr hnew =>
      obtain ⟨d,rfl⟩ := Nat.exists_eq_add_of_le hnew
      rw [List.getElem?_append_right hnew,Nat.add_sub_cancel_left] at hv
      exact hbyt d v hv
  · intro c hc
    have hfil := h.reading_filled c hc
    dsimp only
    rw [drop_append_of_le_length (by omega),take_append_of_le_length (by rw [length_drop]; omega)]
    exact h.reading c hc
  · intro c hc
    have hfil := h.reading_filled c hc
    dsimp only
    rw [take_append_of_le_length (by omega)]
    exact h.consumed c hc

theorem read (hlt : (s.reading c).length < s.ready c) (hs : s.step Q (.read c) = some s') : Inv Q s' := by
  rw [step,if_pos ⟨hc,hlt⟩] at hs
  obtain rfl := some.inj hs
  have hend := h.ready_end c hc
  have hfil := h.filled c hc
  have hin : s.consumer c+(s.reading c).length < s.produced.length := by
    rw [h.produced_length]
    omega
  have hbyte := h.stored c hc _ (Nat.le_add_right _ _) _ (List.getElem?_eq_getElem hin)
  rw [mod_add_of_lt (by omega),← bufferToConsume_eq] at hbyte
  refine { h with reading_filled := ?_, reading := ?_ }
  · intro c' hc'
    dsimp only
    by_cases heq : c'=c
    · rw [heq,update_self,length_append,length_singleton]
      omega
    · rw [update_of_ne heq]
      exact h.reading_filled c' hc'
  · intro c' hc'
    dsimp only
    by_cases heq : c'=c
    · rw [heq,update_self,length_append,length_singleton,take_add_one,← h.reading c hc,
        List.getElem?_drop,List.getElem?_eq_getElem hin,hbyte]
      rfl
    · rw [update_of_ne heq]
      exact h.reading c' hc'

theorem consumeBytes (hle : (s.reading c).length ≤ s.ready c) (hs : s.step Q (.consumeBytes c) = some s') :
    Inv Q s' := by
  have hend := h.ready_end c hc
  have hfil := h.filled c hc
  have hlt := h.producer_lt (k := Q.producers-1) (sub_one_lt_of_lt Q.producers_pos)
  have hcnt : (s.consumer c+(s.reading c).length)%2^64=s.consumer c+(s.reading c).length :=
    mod_eq_of_lt (by omega)
  rw [step,if_pos ⟨hc,hle⟩,hcnt] at hs
  obtain rfl := some.inj hs
  have hgro : ∀ j, s.consumer j ≤ update s.consumer c (s.consumer c+(s.reading c).length) j := by
    intro j
    by_cases hj : j=c
    · rw [hj,update_self]
      exact Nat.le_add_right _ _
    · rw [update_of_ne hj]
  refine { h with free := ?_, filled := ?_, ready_end := ?_, reading_filled := ?_, stored := ?_, reading := ?_, consumed := ?_ }
  · intro j hj
    exact (h.free j hj).trans (Nat.add_le_add_right (hgro j) _)
  · intro j hj
    dsimp only
    by_cases hjc : j=c
    · rw [hjc,update_self,update_self]
      omega
    · rw [update_of_ne hjc,update_of_ne hjc]
      exact h.filled j hj
  · intro j hj
    dsimp only
    by_cases hjc : j=c
    · rw [hjc,update_self,update_self]
      cases lt_or_ge (s.consumer c%Q.qsize+(s.reading c).length) Q.qsize with
      | inl hin =>
        rw [mod_add_of_lt hin]
        omega
      | inr hout =>
        have hmod := mod_lt (s.consumer c+(s.reading c).length) Q.qsize_pos
        omega
    · rw [update_of_ne hjc,update_of_ne hjc]
      exact h.ready_end j hj
  · intro j hj
    dsimp only
    by_cases hjc : j=c
    · rw [hjc,update_self,update_self]
      exact h.reading_filled c hc
    · rw [update_of_ne hjc,update_of_ne hjc]
      exact h.reading_filled j hj
  · intro j hj
    exact (h.stored j hj).mono (hgro j)
  · intro j hj
    dsimp only
    by_cases hjc : j=c
    · rw [hjc,update_self]
      rfl
    · rw [update_of_ne hjc,update_of_ne hjc]
      exact h.reading j hj
  · intro j hj
    dsimp only
    by_cases hjc : j=c
    · rw [hjc,update_self,update_self,h.consumed c hc,take_add,← h.reading c hc]
    · rw [update_of_ne hjc,update_of_ne hjc]
      exact h.consumed j hj

end

theorem step {e : Event V} (hok : Condition Q s e) (hs : s.step Q e = some s') : Inv Q s' := by
  cases e with
  | bytesAvailableToProduce k =>
    obtain ⟨hk,rfl⟩ := ite_some_none_eq_some.mp hs
    apply h.bytesAvailableToProduce
    intro j hj
    subst hj
    exact hok
  | write k i byte =>
    obtain ⟨⟨hk,hi⟩,rfl⟩ := ite_some_none_eq_some.mp hs
    exact h.write hk hi
  | produceBytes k n =>
    obtain ⟨⟨hk,hn⟩,-⟩ := ite_none_right_eq_some.mp hs
    apply h.produceBytes hk hn _ hs
    intro h0
    subst h0
    exact hok
  | bytesAvailableToConsume c =>
    obtain ⟨hc,rfl⟩ := ite_some_none_eq_some.mp hs
    exact h.bytesAvailableToConsume hc
  | read c =>
    obtain ⟨⟨hc,hlt⟩,-⟩ := ite_none_right_eq_some.mp hs
    exact h.read hc hlt hs
  | consumeBytes c =>
    obtain ⟨⟨hc,hle⟩,-⟩ := ite_none_right_eq_some.mp hs
    exact h.consumeBytes hc hle hs

end Inv

/-- What the queue offers in a state, and what the consumers have seen. -/
structure Offers (Q : SharedSizes) (s : SharedWorkQueue V) : Prop where
  inside_first : s.bufferToProduce Q 0 + s.bytesAvailableToProduce Q 0 ≤ Q.qsize
  inside_next : ∀ k, k + 1 < Q.producers →
    (s.bufferToProduce Q (k + 1) + s.bytesAvailableToProduce Q (k + 1) ≤ Q.qsize ↔ Clear Q s k)
  inside_consumer : ∀ c < Q.consumers, s.bufferToConsume Q c + s.bytesAvailableToConsume Q c ≤ Q.qsize
  consumed_first : ∀ c < Q.consumers, s.producer 0 + s.bytesAvailableToProduce Q 0 ≤ s.consumer c + Q.qsize
  produced_next : ∀ k, k + 1 < Q.producers → s.producer (k + 1) + s.bytesAvailableToProduce Q (k + 1) ≤ s.producer k
  produced_consumer : ∀ c < Q.consumers, s.consumer c + s.bytesAvailableToConsume Q c ≤ s.producer (Q.producers - 1)
  full : s.bytesAvailableToProduce Q 0 = 0 → ∃ c < Q.consumers, s.producer 0 = s.consumer c + Q.qsize
  empty_next : ∀ k, k + 1 < Q.producers → s.bytesAvailableToProduce Q (k + 1) = 0 → s.producer (k + 1) = s.producer k
  empty_consumer : ∀ c < Q.consumers, s.bytesAvailableToConsume Q c = 0 → s.consumer c = s.producer (Q.producers - 1)
  same_bytes : ∀ c < Q.consumers, s.consumed c = s.produced.take (s.consumer c)

theorem Inv.offers (h : Inv Q s) : Offers Q s := by
  have hpos := Q.qsize_pos
  have hunit := Q.worksize_pos
  obtain ⟨⟨m,hm,heq⟩,hmin⟩ := h.min_consumed
  have hfir := h.available_first
  have hfr := h.free m hm
  constructor
  · have hlt : s.producer 0%Q.qsize<Q.qsize := mod_lt _ hpos
    rw [bufferToProduce_eq]
    omega
  · intro k hk
    have hnx := h.available_next hk
    have hlt : s.producer (k+1)%Q.qsize<Q.qsize := mod_lt _ hpos
    have hle : s.producer (k+1)%Q.qsize ≤ s.producer (k+1) := mod_le _ _
    have hcha := h.producer_le (Nat.le_add_right k 1) hk
    rw [bufferToProduce_eq,hnx,Clear]
    omega
  · intro c hc
    have hava := h.available_consumer hc
    have hlt : s.consumer c%Q.qsize<Q.qsize := mod_lt _ hpos
    rw [bufferToConsume_eq]
    omega
  · intro c hc
    have hle := hmin c hc
    omega
  · intro k hk
    have hnx := h.available_next hk
    have hcha := h.producer_le (Nat.le_add_right k 1) hk
    omega
  · intro c hc
    have hava := h.available_consumer hc
    have hfil := h.filled c hc
    omega
  · intro hzr
    have hlt : s.producer 0%Q.qsize<Q.qsize := mod_lt _ hpos
    exact ⟨m,hm,by omega⟩
  · intro k hk hzr
    have hnx := h.available_next hk
    have hcha := h.producer_le (Nat.le_add_right k 1) hk
    omega
  · intro c hc hzr
    have hava := h.available_consumer hc
    have hfil := h.filled c hc
    have hlt : s.consumer c%Q.qsize<Q.qsize := mod_lt _ hpos
    omega
  · exact h.consumed

/-- In a run in which the rewriting producers ask only when the buffer is clear, everything that is offered is there, and all
consumers see the same bytes. What a rewriting producer would be offered is inside the buffer exactly when it is clear. -/
theorem offers_of_run {buffer : ℕ → V} (h : Run (step Q) (Condition Q) (start buffer) s) : Offers Q s :=
  (h.invariant (Inv.start Q buffer) fun _ _ _ hinv hok hs => hinv.step hok hs).offers

section Concrete

/-- Two work units of four bytes, two producers and one consumer. -/
def eightBytes : SharedSizes := ⟨2, 4, 2, 1, ⟨3, by decide, rfl⟩, Nat.two_pos, Nat.one_pos⟩

def fourBytes : List (Event ℕ) :=
  [.bytesAvailableToProduce 0, .write 0 0 5, .write 0 3 6, .produceBytes 0 4, .bytesAvailableToProduce 1, .write 1 1 7,
    .produceBytes 1 4, .bytesAvailableToConsume 0, .read 0, .read 0, .read 0, .read 0, .consumeBytes 0]

theorem offers_of_run_four : ∃ s : SharedWorkQueue ℕ, s.consumed 0 = [5, 7, 0, 6] ∧ Offers eightBytes s := by
  have heve : (execEvents (fun s e => if Condition eightBytes s e then step eightBytes s e else none) fourBytes
      (start fun _ => 0)).map (fun s => s.consumed 0) = some [5,7,0,6] := by
    decide
  obtain ⟨s,hs,hcns⟩ := map_eq_some_iff.mp heve
  exact ⟨s,hcns,offers_of_run (Run.refl.checked fourBytes hs)⟩

/-- The second producer stops at the sixth byte, and the first goes on behind the end of the buffer. -/
def unaligned : List (Event ℕ) :=
  [.bytesAvailableToProduce 0, .produceBytes 0 4, .bytesAvailableToProduce 0, .produceBytes 0 4,
    .bytesAvailableToProduce 1, .produceBytes 1 3, .bytesAvailableToProduce 1, .produceBytes 1 3,
    .bytesAvailableToConsume 0, .read 0, .read 0, .read 0, .read 0, .consumeBytes 0,
    .bytesAvailableToProduce 0, .produceBytes 0 4]

/-- Then it is offered four bytes where there are two. -/
theorem beyond_end : (execEvents (step eightBytes) unaligned (start fun _ => 0)).map
    (fun s => (s.bufferToProduce eightBytes 1, s.bytesAvailableToProduce eightBytes 1)) = some (6, 4) := by
  decide

end Concrete

end PAMI.WorkQueue.SharedWorkQueue
