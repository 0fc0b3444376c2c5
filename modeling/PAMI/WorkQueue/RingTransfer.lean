import PAMI.WorkQueue.RingPlaces

namespace PAMI.WorkQueue.RingReduce

open PAMI.Math Function

variable {β : Type*} {C : RingCalls β} {s : RingReduce β} {i : ℕ}

theorem update_add (f : ℕ → ℕ → ℕ) (i j m k l : ℕ) : update f i (update (f i) j (f i j+m)) k l =
    f k l+if k = i ∧ l=j then m else 0 := by
  by_cases hk : k=i
  · subst hk
    rw [update_self]
    by_cases hl : l=j
    · rw [hl,update_self,if_pos ⟨rfl,rfl⟩]
    · rw [update_of_ne hl,if_neg fun hne => hl hne.2,add_zero]
  · rw [update_of_ne hk,if_neg fun hne => hk hne.1,add_zero]

/-- What a rank puts into a queue, and what it takes from one. -/
def put (C : RingCalls β) (s : RingReduce β) (i m q : ℕ) : ℕ :=
  if q = i ∧ (C.call (s.done i)).root ≠ i then m else 0

def taken (C : RingCalls β) (s : RingReduce β) (i m q : ℕ) : ℕ :=
  if q = next C.size i ∧ (C.call (s.done i)).root ≠ next C.size i then m else 0

/-- A queue after bytes were put into it and taken from it. -/
def moved (q : PipeWorkQueue) (put taken : ℕ) : PipeWorkQueue :=
  { q with
    producedBytes := q.producedBytes + BitVec.ofNat 64 put
    consumedBytes := q.consumedBytes + BitVec.ofNat 64 taken }

theorem isCircular_moved {k : ℕ} {q : PipeWorkQueue} (h : IsCircular k q) (put taken : ℕ) :
    IsCircular k (moved q put taken) := ⟨h.qsize,h.pmask,h.prodTm,h.consTm⟩

theorem moved_zero (q : PipeWorkQueue) : moved q 0 0 = q := by
  rw [moved,BitVec.add_zero,BitVec.add_zero]

def producedPosition (s : RingReduce β) (i : ℕ) : ℕ := ((s.wq i).position (s.wq i).producedBytes).toNat

/-- What a rank changes when it moves some bytes. -/
structure Advanced (C : RingCalls β) (s : RingReduce β) (i m : ℕ) (data : List β) (s' : RingReduce β) : Prop where
  posted : s'.posted = s.posted
  iproduced : s'.iproduced = s.iproduced
  iconsumed : s'.iconsumed = update s.iconsumed i
    (update (s.iconsumed i) (s.done i) (s.iconsumed i (s.done i) + m))
  progress : s'.done = s.done ∧ s'.bytesLeft i = s.bytesLeft i - m ∧ s.bytesLeft i - m ≠ 0 ∨
    s'.done = update s.done i (s.done i + 1) ∧ s.bytesLeft i - m = 0 ∧
      (s.done i + 1 < s.posted i → s'.bytesLeft i = (C.call (s.done i + 1)).bytes)
  others : ∀ k, k ≠ i → s'.bytesLeft k = s.bytesLeft k
  wq : ∀ q, s'.wq q = moved (s.wq q) (put C s i m q) (taken C s i m q)
  buffer : s'.buffer = if (C.call (s.done i)).root = i then s.buffer else
    update s.buffer i (store (s.buffer i) (producedPosition s i) data)
  rproduced : s'.rproduced = if (C.call (s.done i)).root = i then
    update s.rproduced (s.done i) (s.rproduced (s.done i) + m) else s.rproduced
  output : s'.output = if (C.call (s.done i)).root = i then
    update s.output (s.done i) (store (s.output (s.done i)) (s.rproduced (s.done i)) data) else s.output

theorem consumeUpstream_eq (hsi : 2≤C.size) (hi : i<C.size) (m : ℕ) :
    consumeUpstream C s i m = { s with wq := fun q => moved (s.wq q) 0 (taken C s i m q) } := by
  rw [consumeUpstream]
  split
  case isTrue hrole =>
    rw [role_head hsi hi] at hrole
    have htak : ∀ q, taken C s i m q=0 := fun q => if_neg fun hne => hne.2 hrole
    simp only [htak,moved_zero]
  case isFalse hrole =>
    rw [role_head hsi hi] at hrole
    congr 1
    funext q
    by_cases hq : q=next C.size i
    · rw [hq,update_self,taken,if_pos ⟨rfl,hrole⟩,moved,BitVec.add_zero]
    · rw [update_of_ne hq,taken,if_neg fun hne => hq hne.1,moved_zero]

/-- The queues after a rank has taken some bytes and written others. -/
def transfer (C : RingCalls β) (s : RingReduce β) (i m : ℕ) (data : List β) : RingReduce β :=
  { s with
    wq := fun q => moved (s.wq q) (put C s i m q) (taken C s i m q)
    buffer := if (C.call (s.done i)).root = i then s.buffer else
      update s.buffer i (store (s.buffer i) (producedPosition s i) data)
    rproduced := if (C.call (s.done i)).root = i then
      update s.rproduced (s.done i) (s.rproduced (s.done i) + m) else s.rproduced
    output := if (C.call (s.done i)).root = i then
      update s.output (s.done i) (store (s.output (s.done i)) (s.rproduced (s.done i)) data)
      else s.output }

theorem produce_consumeUpstream (hsi : 2≤C.size) (hi : i<C.size) (m : ℕ) (data : List β) :
    produce C (consumeUpstream C s i m) i m data = transfer C s i m data := by
  rw [consumeUpstream_eq hsi hi,produce,transfer]
  dsimp only
  split
  case isTrue hrole =>
    rw [role_root] at hrole
    have hput : ∀ q, put C s i m q=0 := fun q => if_neg fun hne => hne.2 hrole
    simp only [hput,if_pos hrole]
  case isFalse hrole =>
    rw [role_root] at hrole
    have hpon : ((moved (s.wq i) 0 (taken C s i m i)).position
        (moved (s.wq i) 0 (taken C s i m i)).producedBytes).toNat=producedPosition s i := by
      rw [producedPosition,moved,BitVec.add_zero]
      rfl
    simp only [if_neg hrole,hpon]
    congr 1
    funext q
    by_cases hq : q=i
    · rw [hq,update_self,put,if_pos ⟨rfl,hrole⟩]
      simp only [moved,BitVec.add_zero]
    · rw [update_of_ne hq,put,if_neg fun hne => hq hne.1]

theorem setThreads_eq : ∃ left, setThreads C s i = { s with bytesLeft := left } ∧ (∀ k, k≠i → left k = s.bytesLeft k) ∧
    (s.done i < s.posted i → left i = (C.call (s.done i)).bytes) := by
  rw [setThreads]
  split
  case isTrue hlt =>
    refine ⟨_,rfl,?_,?_⟩
    · intro k hk
      exact update_of_ne hk _ _
    · intro _
      exact update_self _ _ _
  case isFalse hlt => exact ⟨s.bytesLeft,rfl,fun _ _ => rfl,fun h => absurd h hlt⟩

theorem consumeInput_eq (m : ℕ) : ∃ done left, consumeInput C s i m = { s with
      done := done
      bytesLeft := left
      iconsumed := update s.iconsumed i
        (update (s.iconsumed i) (s.done i) (s.iconsumed i (s.done i)+m)) } ∧
    (done=s.done ∧ left i = s.bytesLeft i-m ∧ s.bytesLeft i-m ≠ 0 ∨
      done = update s.done i (s.done i+1) ∧ s.bytesLeft i-m = 0 ∧
        (s.done i+1 < s.posted i → left i = (C.call (s.done i+1)).bytes)) ∧
    ∀ k, k≠i → left k = s.bytesLeft k := by
  have hots : ∀ k, k≠i → update s.bytesLeft i (s.bytesLeft i-m) k = s.bytesLeft k := by
    intro k hk
    exact update_of_ne hk _ _
  rw [consumeInput]
  dsimp only
  split
  case isTrue hzr =>
    rw [update_self] at hzr
    obtain ⟨left,heq,hlf,hnew⟩ := setThreads_eq (C := C) (i := i) (s := { s with
      done := update s.done i (s.done i+1)
      bytesLeft := update s.bytesLeft i (s.bytesLeft i-m)
      iconsumed := update s.iconsumed i
        (update (s.iconsumed i) (s.done i) (s.iconsumed i (s.done i)+m)) })
    refine ⟨_,left,heq,Or.inr ⟨rfl,hzr,?_⟩,?_⟩
    · dsimp only at hnew
      rwa [update_self] at hnew
    · intro k hk
      rw [hlf k hk]
      exact hots k hk
  case isFalse hzr =>
    rw [update_self] at hzr
    exact ⟨s.done,_,rfl,Or.inl ⟨rfl,update_self _ _ _,hzr⟩,hots⟩

theorem advanced (hsi : 2≤C.size) (hi : i<C.size) (m : ℕ) (data : List β) :
    Advanced C s i m data (consumeInput C (produce C (consumeUpstream C s i m) i m data) i m) := by
  obtain ⟨done,left,heq,hpro,hots⟩ := consumeInput_eq (C := C) (s := transfer C s i m data) (i := i) m
  rw [produce_consumeUpstream hsi hi,heq]
  exact ⟨rfl,rfl,rfl,hpro,hots,fun _ => rfl,rfl,rfl,rfl⟩

end PAMI.WorkQueue.RingReduce
