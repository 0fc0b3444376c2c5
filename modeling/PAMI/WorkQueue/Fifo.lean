import PAMI.Math.CircularBuffer
import PAMI.Math.Runs
import PAMI.WorkQueue.PipeWorkQueue

namespace PAMI.WorkQueue

open PAMI.Datatype PAMI.Math List Option Nat BitVec

/-- A queue that `configure` has made a circular buffer of `2^k` bytes. -/
structure IsCircular (k : ℕ) (q : PipeWorkQueue) : Prop where
  qsize : q.qsize.toNat = 2^k
  pmask : q.pmask = q.qsize - 1
  prodTm : q.prodTm = none
  consTm : q.consTm = none

namespace IsCircular

variable {k : ℕ} {q : PipeWorkQueue} (h : IsCircular k q)

include h

theorem lt : k<32 := by
  have hlt := q.qsize.isLt
  rw [h.qsize] at hlt
  exact (Nat.pow_lt_pow_iff_right (by decide)).mp hlt

theorem pow_le : 2^k≤2^31 := Nat.pow_le_pow_right (by decide) (le_of_lt_succ h.lt)

theorem pmask_toNat : q.pmask.toNat=2^k-1 := by
  have hpos := Nat.two_pow_pos k
  have hle := h.pow_le
  have hone : (1 : BitVec 32).toNat=1 := rfl
  rw [h.pmask,toNat_sub,h.qsize,hone]
  omega

theorem pmask_ne_zero (hk : 1≤k) : q.pmask≠0 := by
  intro h0
  have hmask := h.pmask_toNat
  have hle : 2^1≤2^k := Nat.pow_le_pow_right (by decide) hk
  rw [h0] at hmask
  simp at hmask
  omega

theorem position_toNat (x : ℕ) : (q.position (BitVec.ofNat 64 x)).toNat=x%2^k := by
  have hle := h.pow_le
  have hlt : x%2^k<2^k := mod_lt _ (Nat.two_pow_pos k)
  have hdvd : 2^k ∣ 2^64 := Nat.pow_dvd_pow 2 (le_trans h.lt.le (by decide))
  have hmask : (q.pmask.setWidth 64).toNat=2^k-1 := by
    rw [toNat_setWidth,h.pmask_toNat]
    omega
  rw [PipeWorkQueue.position,toNat_setWidth,toNat_and,hmask,BitVec.toNat_ofNat,
    and_two_pow_sub_one_eq_mod,mod_mod_of_dvd _ hdvd]
  omega

theorem sub_toNat {x : Unsigned} (hx : x.toNat≤2^k) :
    ((q.qsize-x).setWidth 64).toNat=2^k-x.toNat := by
  have hle := h.pow_le
  rw [toNat_setWidth,toNat_sub_of_le (le_def.mpr (h.qsize ▸ hx)),h.qsize]
  omega

theorem roomToProduce_toNat {p c : ℕ} (hc : c≤p) (hp : p ≤ c+2^k) :
    (q.roomToProduce (BitVec.ofNat 64 p) (BitVec.ofNat 64 c)).toNat = min (2^k-p%2^k) (2^k-(p-c)) := by
  have hle := h.pow_le
  have hpos := Nat.two_pow_pos k
  have hpo := h.position_toNat p
  have hco := h.position_toNat c
  have hplt : p%2^k<2^k := mod_lt _ hpos
  have hclt : c%2^k<2^k := mod_lt _ hpos
  have hdist := mod_distance hpos hc hp
  have hgt : q.position (BitVec.ofNat 64 c) < q.position (BitVec.ofNat 64 p) ↔ c%2^k<p%2^k := by
    rw [lt_def,hpo,hco]
  have hlt : q.position (BitVec.ofNat 64 p) < q.position (BitVec.ofNat 64 c) ↔ p%2^k < c%2^k := by
    rw [lt_def,hpo,hco]
  simp only [PipeWorkQueue.roomToProduce,gt_iff_lt,hgt,hlt]
  rcases hdist with ⟨hmod,hpc⟩ | ⟨hin,hd⟩ | ⟨hout,hd⟩
  · rw [if_neg (by omega),if_neg (by omega)]
    rcases hpc with rfl | rfl
    · rw [if_pos rfl,h.sub_toNat (by omega),hpo,Nat.sub_self]
      exact (Nat.min_eq_left (by omega)).symm
    · have hne : BitVec.ofNat 64 (c+2^k) ≠ BitVec.ofNat 64 c := by
        intro heq
        have hsm := congrArg BitVec.toNat heq
        rw [BitVec.toNat_ofNat,BitVec.toNat_ofNat] at hsm
        exact mod_ne_mod (q := 2^64) (i := c) (j := c+2^k) (by omega) (by omega) hsm.symm
      rw [if_neg hne,Nat.add_sub_cancel_left,Nat.sub_self,Nat.min_zero]
      rfl
  · rw [if_pos hin,h.sub_toNat (by omega),hpo,hd,Nat.min_eq_left (by omega)]
  · rw [if_neg (by omega),if_pos hout,toNat_setWidth,toNat_sub_of_le (le_def.mpr (by omega)),hpo,hco,hd,
      Nat.sub_sub_self (by omega),Nat.min_eq_right (by omega)]
    exact mod_eq_of_lt (by omega)

theorem dataToConsume_toNat {p c : ℕ} (hc : c≤p) (hp : p ≤ c+2^k) :
    (q.dataToConsume (BitVec.ofNat 64 p) (BitVec.ofNat 64 c)).toNat = min (2^k-c%2^k) (p-c) := by
  have hle := h.pow_le
  have hpos := Nat.two_pow_pos k
  have hplt : p%2^k<2^k := mod_lt _ hpos
  have hclt : c%2^k<2^k := mod_lt _ hpos
  have hsi : (q.qsize.setWidth 64).toNat=2^k := by
    rw [toNat_setWidth,h.qsize]
    omega
  -- moved on or not, the positions are the same and the order of the counters is the true one
  obtain ⟨p',c',heq,hpo,hco,hord⟩ : ∃ p' c' : Word,
      (if BitVec.ofNat 64 p < BitVec.ofNat 64 c ∧ BitVec.ofNat 64 p+q.qsize.setWidth 64 >
          BitVec.ofNat 64 c+q.qsize.setWidth 64 then
        (BitVec.ofNat 64 p+q.qsize.setWidth 64, BitVec.ofNat 64 c+q.qsize.setWidth 64)
        else (BitVec.ofNat 64 p, BitVec.ofNat 64 c))=(p', c') ∧
      (q.position p').toNat=p%2^k ∧ (q.position c').toNat=c%2^k ∧
      (p%2^k=c%2^k → (p' > c' ↔ p≠c)) := by
    have hmove (x : ℕ) : (q.position (BitVec.ofNat 64 x+q.qsize.setWidth 64)).toNat=x%2^k := by
      have hofn : q.qsize.setWidth 64 = BitVec.ofNat 64 (2^k) := by rw [← hsi,ofNat_toNat,setWidth_eq]
      rw [hofn,← ofNat_add,h.position_toNat,add_mod_right]
    have hsm := mod_distance hpos hc hp
    split_ifs with hbump
    · refine ⟨_,_,rfl,hmove p,hmove c,fun hmod => ⟨fun hgt hpc => ?_,fun _ => hbump.2⟩⟩
      rw [hpc] at hgt
      exact absurd hgt (BitVec.lt_irrefl _)
    · refine ⟨_,_,rfl,h.position_toNat p,h.position_toNat c,fun hmod => ⟨fun hgt hpc => ?_,?_⟩⟩
      · rw [hpc] at hgt
        exact absurd hgt (BitVec.lt_irrefl _)
      · intro hne
        obtain rfl : p=c+2^k := by
          rcases hsm with ⟨-,hpc⟩ | ⟨hin,-⟩ | ⟨hout,-⟩
          · exact hpc.resolve_left hne
          · exact absurd hmod hin.ne'
          · exact absurd hmod hout.ne
        rw [not_and_or] at hbump
        simp only [gt_iff_lt,lt_def,toNat_add,BitVec.toNat_ofNat,hsi] at hbump ⊢
        rw [← mod_add_mod c] at hbump ⊢
        have hlt := mod_lt c (Nat.two_pow_pos 64)
        generalize c%2^64=x at hbump hlt ⊢
        rcases lt_or_ge (x+2^k) (2^64) with hx | hx
        · rw [mod_eq_of_lt hx]
          omega
        · have hy : (x+2^k)%2^64=x+2^k-2^64 := by
            rw [mod_eq_sub_mod hx]
            exact mod_eq_of_lt (by omega)
          rw [hy,mod_eq_of_lt (show x+2^k-2^64+2^k<2^64 by omega)] at hbump
          rcases hbump with hb | hb <;> exact absurd (by omega) hb
  simp only [PipeWorkQueue.dataToConsume,heq]
  have hgt : q.position c' < q.position p' ↔ c%2^k<p%2^k := by rw [lt_def,hpo,hco]
  have hlt : q.position p' < q.position c' ↔ p%2^k < c%2^k := by rw [lt_def,hpo,hco]
  simp only [gt_iff_lt,hgt,hlt]
  rcases mod_distance hpos hc hp with ⟨hmod,hpc⟩ | ⟨hin,hd⟩ | ⟨hout,hd⟩
  · rw [if_neg (by omega),if_neg (by omega)]
    rcases hpc with rfl | rfl
    · rw [if_neg fun hgt => (hord hmod).mp hgt rfl,Nat.sub_self,Nat.min_zero]
      rfl
    · rw [if_pos ((hord hmod).mpr (by omega)),h.sub_toNat (by omega),hco,Nat.add_sub_cancel_left]
      exact (Nat.min_eq_left (by omega)).symm
  · rw [if_pos hin,toNat_setWidth,toNat_sub_of_le (le_def.mpr (by omega)),hpo,hco,hd,
      Nat.min_eq_right (by omega)]
    exact mod_eq_of_lt (by omega)
  · rw [if_neg (by omega),if_pos hout,h.sub_toNat (by omega),hco,hd,Nat.min_eq_left (by omega)]

end IsCircular

variable {β : Type*}

/-- A producer and a consumer at the two ends of a queue, with what each was last offered and has
written or read of it, and all that they have produced and consumed so far. -/
structure Pipe (β : Type*) where
  queue : PipeWorkQueue
  buffer : ℕ → β
  room : ℕ
  pending : List β
  written : List β
  ready : ℕ
  reading : List β
  read : List β

inductive PipeEvent (β : Type*)
  | bytesAvailableToProduce
  | write (data : List β)
  | produceBytes
  | bytesAvailableToConsume
  | read (bytes : ℕ)
  | consumeBytes

namespace Pipe

def start (queue : PipeWorkQueue) (buffer : ℕ → β) : Pipe β := ⟨queue, buffer, 0, [], [], 0, [], []⟩

/-- One step of a client; an offer is good until the bytes of it are produced or consumed. -/
def step (fuel : ℕ) (s : Pipe β) : PipeEvent β → Option (Pipe β)
  | .bytesAvailableToProduce =>
    (s.queue.bytesAvailableToProduce fuel).map fun r =>
      { s with queue := r.2, room := r.1.toNat }
  | .write data =>
    if data.length ≤ s.room then
      some { s with
        buffer := store s.buffer s.queue.bufferToProduce.toNat data, pending := data }
    else none
  | .produceBytes =>
    (s.queue.produceBytes fuel (BitVec.ofNat 64 s.pending.length)).map fun q =>
      { s with queue := q, room := 0, pending := [], written := s.written ++ s.pending }
  | .bytesAvailableToConsume =>
    (s.queue.bytesAvailableToConsume fuel).map fun r =>
      { s with queue := r.2, ready := r.1.toNat }
  | .read bytes =>
    if bytes ≤ s.ready then
      some { s with
        reading := (List.range bytes).map fun i => s.buffer (s.queue.bufferToConsume.toNat + i) }
    else none
  | .consumeBytes =>
    (s.queue.consumeBytes fuel (BitVec.ofNat 64 s.reading.length)).map fun q =>
      { s with queue := q, ready := 0, reading := [], read := s.read ++ s.reading }

/-- The counters count the streams, an offer stays free or filled until it is taken, and the buffer
holds what is not yet consumed. -/
structure Inv (k : ℕ) (s : Pipe β) : Prop where
  circular : IsCircular k s.queue
  produced : s.queue.producedBytes = BitVec.ofNat 64 s.written.length
  consumed : s.queue.consumedBytes = BitVec.ofNat 64 s.read.length
  room_end : s.written.length % 2^k + s.room ≤ 2^k
  room_free : s.written.length + s.room ≤ s.read.length + 2^k
  pending_le : s.pending.length ≤ s.room
  ready_end : s.read.length % 2^k + s.ready ≤ 2^k
  ready_filled : s.read.length + s.ready ≤ s.written.length
  reading_le : s.reading.length ≤ s.ready
  stored : Stored s.buffer (2^k) s.read.length (s.written ++ s.pending)
  reading_eq : s.reading = (s.written.drop s.read.length).take s.reading.length
  read_eq : s.read = s.written.take s.read.length

namespace Inv

variable {k fuel : ℕ} {s s' : Pipe β} (h : Inv k s)

include h

theorem read_le : s.read.length ≤ s.written.length := by
  have hfil := h.ready_filled
  omega

theorem written_le : s.written.length ≤ s.read.length+2^k := by
  have hfr := h.room_free
  omega

theorem bytesAvailableToProduce (fuel : ℕ) (hk : 1≤k) :
    ∃ a, s.queue.bytesAvailableToProduce fuel = some (a, s.queue) ∧ a.toNat =
      min (2^k-s.written.length%2^k) (2^k-(s.written.length-s.read.length)) := by
  refine ⟨s.queue.roomToProduce s.queue.producedBytes s.queue.consumedBytes,?_,?_⟩
  · rw [PipeWorkQueue.bytesAvailableToProduce,if_neg (h.circular.pmask_ne_zero hk),h.circular.prodTm]
  · rw [h.produced,h.consumed]
    exact h.circular.roomToProduce_toNat h.read_le h.written_le

theorem bytesAvailableToConsume (fuel : ℕ) (hk : 1≤k) :
    ∃ b, s.queue.bytesAvailableToConsume fuel = some (b, s.queue) ∧ b.toNat =
      min (2^k-s.read.length%2^k) (s.written.length-s.read.length) := by
  refine ⟨s.queue.dataToConsume s.queue.producedBytes s.queue.consumedBytes,?_,?_⟩
  · rw [PipeWorkQueue.bytesAvailableToConsume,if_neg (h.circular.pmask_ne_zero hk),h.circular.consTm]
  · rw [h.produced,h.consumed]
    exact h.circular.dataToConsume_toNat h.read_le h.written_le

theorem bufferToProduce_toNat (hk : 1≤k) :
    s.queue.bufferToProduce.toNat=s.written.length%2^k := by
  have hpos := h.circular.position_toNat s.written.length
  have hlt := (s.queue.position (BitVec.ofNat 64 s.written.length)).isLt
  rw [PipeWorkQueue.bufferToProduce,if_neg (h.circular.pmask_ne_zero hk),h.circular.prodTm,
    h.produced,toNat_setWidth,mod_eq_of_lt (by omega),hpos]

theorem bufferToConsume_toNat (hk : 1≤k) :
    s.queue.bufferToConsume.toNat=s.read.length%2^k := by
  have hpos := h.circular.position_toNat s.read.length
  have hlt := (s.queue.position (BitVec.ofNat 64 s.read.length)).isLt
  rw [PipeWorkQueue.bufferToConsume,if_neg (h.circular.pmask_ne_zero hk),h.circular.consTm,
    h.consumed,toNat_setWidth,mod_eq_of_lt (by omega),hpos]

theorem load (hk : 1≤k) {n : ℕ} (hend : s.read.length%2^k+n≤2^k)
    (hfil : s.read.length+n ≤ s.written.length) :
    (List.range n).map (fun i => s.buffer (s.queue.bufferToConsume.toNat+i)) =
      (s.written.drop s.read.length).take n := by
  have hload := h.stored.load hend (by rw [length_append]; omega)
  rw [h.bufferToConsume_toNat hk,hload,drop_append_of_le_length h.read_le,take_append_of_le_length]
  rw [length_drop]
  omega

theorem produceBytes (hs : s.step fuel .produceBytes = some s') : Inv k s' := by
  have hend := h.room_end
  have hfr := h.room_free
  have hrend := h.ready_end
  have hfil := h.ready_filled
  have hread := h.read_le
  have hplt : s.written.length%2^k<2^k := mod_lt _ (Nat.two_pow_pos k)
  have hpen := h.pending_le
  simp only [Pipe.step,PipeWorkQueue.produceBytes,h.circular.prodTm,PipeWorkQueue.moveTo,
    map_some,Option.some.injEq] at hs
  subst hs
  have hlen : (s.written ++ s.pending).length=s.written.length+s.pending.length := length_append
  have hlt : (s.written ++ s.pending).length%2^k<2^k := mod_lt _ (Nat.two_pow_pos k)
  exact {
    circular := ⟨h.circular.qsize,h.circular.pmask,rfl,h.circular.consTm⟩
    produced := by
      dsimp only
      rw [h.produced,← ofNat_add,hlen]
    consumed := h.consumed
    room_end := by dsimp only; omega
    room_free := by dsimp only; omega
    pending_le := le_refl _
    ready_end := hrend
    ready_filled := by dsimp only; omega
    reading_le := h.reading_le
    stored := by simpa using h.stored
    reading_eq := by
      have hrea := h.reading_le
      dsimp only
      rw [drop_append_of_le_length hread,take_append_of_le_length]
      · exact h.reading_eq
      · rw [length_drop]
        omega
    read_eq := by
      dsimp only
      rw [take_append_of_le_length hread]
      exact h.read_eq }

theorem consumeBytes (hs : s.step fuel .consumeBytes = some s') : Inv k s' := by
  have hend := h.room_end
  have hfr := h.room_free
  have hrend := h.ready_end
  have hfil := h.ready_filled
  have hclt : s.read.length%2^k<2^k := mod_lt _ (Nat.two_pow_pos k)
  have hrea := h.reading_le
  simp only [Pipe.step,PipeWorkQueue.consumeBytes,h.circular.consTm,PipeWorkQueue.moveTo,
    map_some,Option.some.injEq] at hs
  subst hs
  have hlen : (s.read ++ s.reading).length=s.read.length+s.reading.length := length_append
  have hlt : (s.read ++ s.reading).length%2^k<2^k := mod_lt _ (Nat.two_pow_pos k)
  exact {
    circular := ⟨h.circular.qsize,h.circular.pmask,h.circular.prodTm,rfl⟩
    produced := h.produced
    consumed := by
      dsimp only
      rw [h.consumed,← ofNat_add,hlen]
    room_end := hend
    room_free := by dsimp only; omega
    pending_le := h.pending_le
    ready_end := by dsimp only; omega
    ready_filled := by dsimp only; omega
    reading_le := le_refl _
    stored := h.stored.mono (by dsimp only; omega)
    reading_eq := rfl
    read_eq := by
      dsimp only
      rw [hlen,take_add,← h.read_eq,← h.reading_eq] }

theorem step (hk : 1≤k) {e : PipeEvent β} (hs : s.step fuel e = some s') : Inv k s' := by
  have hread := h.read_le
  have hwri := h.written_le
  have hend := h.room_end
  have hfr := h.room_free
  have hrend := h.ready_end
  have hfil := h.ready_filled
  have hplt : s.written.length%2^k<2^k := mod_lt _ (Nat.two_pow_pos k)
  have hclt : s.read.length%2^k<2^k := mod_lt _ (Nat.two_pow_pos k)
  cases e with
  | bytesAvailableToProduce =>
    obtain ⟨a,ha,hmin⟩ := h.bytesAvailableToProduce fuel hk
    simp only [Pipe.step,ha,map_some,Option.some.injEq] at hs
    subst hs
    have hpen := h.pending_le
    exact { h with
      room_end := by dsimp only; omega
      room_free := by dsimp only; omega
      pending_le := by dsimp only; omega }
  | write data =>
    simp only [Pipe.step] at hs
    split_ifs at hs with hlen
    obtain rfl := some.inj hs
    have hold : Stored s.buffer (2^k) s.read.length s.written := by
      intro i hi x hx
      refine h.stored i hi x ?_
      rw [List.getElem?_append_left (List.getElem?_eq_some_iff.mp hx).1]
      exact hx
    refine { h with pending_le := hlen, stored := ?_ }
    rw [h.bufferToProduce_toNat hk]
    exact hold.append (by omega) (by omega)
  | produceBytes => exact h.produceBytes hs
  | bytesAvailableToConsume =>
    obtain ⟨b,hb,hmin⟩ := h.bytesAvailableToConsume fuel hk
    simp only [Pipe.step,hb,map_some,Option.some.injEq] at hs
    subst hs
    have hrea := h.reading_le
    exact { h with
      ready_end := by dsimp only; omega
      ready_filled := by dsimp only; omega
      reading_le := by dsimp only; omega }
  | read bytes =>
    simp only [Pipe.step] at hs
    split_ifs at hs with hlen
    obtain rfl := some.inj hs
    have hload := h.load hk (n := bytes) (by omega) (by omega)
    have hcou : ((s.written.drop s.read.length).take bytes).length=bytes := by
      rw [length_take,length_drop]
      omega
    refine { h with reading_le := ?_, reading_eq := ?_ }
    · dsimp only
      rw [hload,hcou]
      exact hlen
    · dsimp only
      rw [hload,hcou]
  | consumeBytes => exact h.consumeBytes hs

end Inv

/-- A byte queue: what is in transit fits, the offers are inside the buffer, that of the producer
spares what is unread and that of the consumer is what comes next, and an offer is empty only if
the queue is full or empty. -/
structure Fifo (fuel : ℕ) (s : Pipe β) : Prop where
  transit : (s.queue.producedBytes - s.queue.consumedBytes).toNat + s.read.length = s.written.length
  fits : (s.queue.producedBytes - s.queue.consumedBytes).toNat ≤ s.queue.qsize.toNat
  in_order : s.read <+: s.written
  toProduce : ∃ a, s.queue.bytesAvailableToProduce fuel = some (a, s.queue) ∧
    s.queue.bufferToProduce.toNat + a.toNat ≤ s.queue.qsize.toNat ∧
    (∀ i, s.read.length ≤ i → i < s.written.length →
      ∀ j < a.toNat, s.queue.bufferToProduce.toNat + j ≠ i % s.queue.qsize.toNat) ∧
    (a = 0 ↔ s.written.length = s.read.length + s.queue.qsize.toNat)
  toConsume : ∃ b, s.queue.bytesAvailableToConsume fuel = some (b, s.queue) ∧
    s.queue.bufferToConsume.toNat + b.toNat ≤ s.queue.qsize.toNat ∧
    s.read.length + b.toNat ≤ s.written.length ∧
    (∀ j < b.toNat, s.written[s.read.length + j]? = some (s.buffer (s.queue.bufferToConsume.toNat + j))) ∧
    (b = 0 ↔ s.written = s.read)

theorem Inv.fifo {k : ℕ} {s : Pipe β} (fuel : ℕ) (h : Inv k s) (hk : 1≤k) : Fifo fuel s := by
  have hread := h.read_le
  have hwri := h.written_le
  have hle := h.circular.pow_le
  have hplt : s.written.length%2^k<2^k := mod_lt _ (Nat.two_pow_pos k)
  have hclt : s.read.length%2^k<2^k := mod_lt _ (Nat.two_pow_pos k)
  have hzr (x : Word) : x=0 ↔ x.toNat=0 := by
    rw [← toNat_inj]
    rfl
  have htra : (s.queue.producedBytes-s.queue.consumedBytes).toNat=s.written.length-s.read.length := by
    rw [h.produced,h.consumed,toNat_sub,BitVec.toNat_ofNat,BitVec.toNat_ofNat]
    omega
  obtain ⟨a,ha,hamin⟩ := h.bytesAvailableToProduce fuel hk
  obtain ⟨b,hb,hbmin⟩ := h.bytesAvailableToConsume fuel hk
  refine ⟨by omega,by rw [htra,h.circular.qsize]; omega,?_,?_,?_⟩
  · rw [h.read_eq]
    exact take_prefix _ _
  · rw [h.circular.qsize,h.bufferToProduce_toNat hk]
    refine ⟨a,ha,by omega,fun i hi hlt j hj => ?_,by rw [hzr]; omega⟩
    rw [← mod_add_of_lt (show s.written.length%2^k+j<2^k by omega)]
    exact (mod_ne_mod (by omega) (by omega)).symm
  · rw [h.circular.qsize,h.bufferToConsume_toNat hk]
    refine ⟨b,hb,by omega,by omega,fun j hj => ?_,?_⟩
    · have hin : s.read.length+j < s.written.length := by omega
      have hpla := h.stored (s.read.length+j) (Nat.le_add_right _ _) (s.written[s.read.length+j])
        (by rw [List.getElem?_append_left hin,List.getElem?_eq_getElem hin])
      rw [List.getElem?_eq_getElem hin,← hpla,mod_add_of_lt (by omega)]
    · rw [hzr,hbmin]
      constructor
      · intro hmin
        have hlen : s.read.length=s.written.length := by omega
        rw [h.read_eq,hlen,take_length]
      · intro heq
        rw [heq]
        omega

end Pipe

section Configured

variable {k : ℕ} {bufsize : Word} {q : PipeWorkQueue}

open PipeWorkQueue

/-- A queue made a circular buffer, in shared memory or of the user. -/
def Configured (bufsize : Word) (q : PipeWorkQueue) : Prop := new.configureCircular bufsize = some q ∨
    ∃ fuel, (new.configureUser bufsize).bind (reset fuel) = some q

open Pipe

theorem Configured.inv (h : Configured bufsize q) (hq : q.qsize.toNat=2^k) (buffer : ℕ → β) :
    (start q buffer).Inv k := by
  obtain ⟨hmask,hprod,hcons,hp,hc⟩ : q.pmask=q.qsize-1 ∧ q.prodTm=none ∧
      q.consTm=none ∧ q.producedBytes=0 ∧ q.consumedBytes=0 := by
    rcases h with h | ⟨fuel,h⟩
    · simp only [configureCircular] at h
      split_ifs at h
      obtain rfl := some.inj h
      exact ⟨rfl,rfl,rfl,rfl,rfl⟩
    · simp only [configureUser] at h
      split_ifs at h
      · obtain rfl := some.inj h
        exact ⟨rfl,rfl,rfl,rfl,rfl⟩
      · cases h
  have hpos := Nat.two_pow_pos k
  exact {
    circular := ⟨hq,hmask,hprod,hcons⟩
    produced := hp
    consumed := hc
    room_end := by simp [start]
    room_free := by simp [start]
    pending_le := le_refl _
    ready_end := by simp [start]
    ready_filled := le_refl _
    reading_le := le_refl _
    stored := fun i _ x hx => by simp [start] at hx
    reading_eq := rfl
    read_eq := rfl }

/-- Whatever the two clients of a circular queue do, in whatever order, it is a byte queue. -/
theorem run_fifo (fuel : ℕ) (h : Configured bufsize q) (hk : 1 ≤ k) (hq : q.qsize.toNat = 2^k)
    (buffer : ℕ → β) {s : Pipe β}
    (hrun : Run (step fuel) (fun _ _ => True) (start q buffer) s) :
    s.Fifo fuel := by
  have hinv : s.Inv k := hrun.invariant (h.inv hq buffer) fun s e s' hs _ hsp => Pipe.Inv.step hs hk hsp
  exact hinv.fifo fuel hk

theorem run_fifo_wraps : ∃ q : PipeWorkQueue, ∃ s : Pipe ℕ, Configured 2 q ∧ q.qsize.toNat = 2^1 ∧
    Run (step 0) (fun _ _ => True) (start q fun _ => 0) s ∧
    s.written = [1, 2, 3] ∧ s.read = [1] ∧ s.reading = [2] ∧ s.Fifo 0 := by
  have hq : Configured 2 ⟨2,0,1,0,0,none,none⟩ := .inl rfl
  have hrun : ∃ s : Pipe ℕ, Run (step 0) (fun _ _ => True) (start ⟨2,0,1,0,0,none,none⟩ fun _ => 0) s ∧
      s.written = [1,2,3] ∧ s.read = [1] ∧ s.reading = [2] := by
    refine ⟨_,Run.execEvents .refl [.bytesAvailableToProduce,.write [1,2],.produceBytes,
      .bytesAvailableToConsume,.read 1,.consumeBytes,.bytesAvailableToProduce,.write [3],
      .produceBytes,.bytesAvailableToConsume,.read 1] (fun _ _ _ => trivial) rfl,rfl,rfl,rfl⟩
  obtain ⟨s,hs,hwri,hread,hrea⟩ := hrun
  exact ⟨_,s,hq,rfl,hs,hwri,hread,hrea,run_fifo 0 hq (le_refl 1) rfl _ hs⟩

end Configured

end PAMI.WorkQueue
