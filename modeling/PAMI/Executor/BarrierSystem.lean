import Mathlib.Tactic.Ring
import PAMI.Executor.Barrier

namespace PAMI.Executor

open List Nat

variable {ι : Type*}

open PAMI.Math BarrierExec

def bit (k : ℕ) : Bool := k % 2 = 1

theorem bit_succ (k : ℕ) : bit (k+1) = !bit k := by
  rcases mod_two_eq_zero_or_one k with h | h
  · simp [bit,add_mod,h]
  · simp [bit,add_mod,h]

/-- A message. The bit of the iteration is sent, the round is not: it counts the barriers its sender
has started. -/
structure Msg (ι : Type*) where
  src : ι
  dst : ι
  phase : ℕ
  iteration : Bool
  round : ℕ
  deriving DecidableEq

/-- The executors, the messages under way and those that have been counted. -/
structure System (ι : Type*) where
  ranks : ι → Rank
  net : List (Msg ι)
  got : List (Msg ι)

/-- What can happen in the system. Messages arrive in any order. -/
inductive SystemEvent (ι : Type*) where
  | deliver (m : Msg ι)
  | occurs (a : ι) (ev : Event)

namespace System

section Steps

variable [DecidableEq ι] (signed : Bool) (cache : ι → ScheduleCache ι)

def messages (c : ScheduleCache ι) (a : ι) (round : ℕ) : Effect → List (Msg ι)
  | .multicast phase iteration _ => (c.dstTopology phase).map fun b => ⟨a, b, phase, iteration, round⟩
  | _ => []

/-- An executor handles an event, and its multicast goes to the net. -/
def handle (s : System ι) (a : ι) (ev : Event) : Option (System ι) :=
  ((s.ranks a).handle signed (cache a) ev).map fun r =>
    { s with
      ranks := Function.update s.ranks a r.1,
      net := s.net ++ messages (cache a) a r.1.starts r.2 }

/-- A step of the system. A message that arrives is taken from the net. -/
def step (s : System ι) : SystemEvent ι → Option (System ι)
  | .deliver m =>
    if m ∈ s.net then
      handle signed cache { s with net := s.net.erase m, got := m :: s.got } m.dst
        (.notifyRecv m.phase m.iteration)
    else none
  | .occurs _ (.notifyRecv _ _) => none
  | .occurs a ev => handle signed cache s a ev

def init (exec : ι → BarrierExec) : System ι := ⟨fun a => Rank.init (exec a), [], []⟩

end Steps

end System

def ScheduleCache.Active (c : ScheduleCache ι) (p : ℕ) : Prop := c.start ≤ p ∧ p < c.finish

open Classical in
/-- Whom a rank hears from in a phase it executes. -/
noncomputable def activeSources (cache : ι → ScheduleCache ι) (p : ℕ) (e : ι) : List ι :=
  if (cache e).Active p then (cache e).srcTopology p else []

/-- The schedules of the members of a communicator: in the phases they execute, sends and receives
match, and in all phases together every member hears from every member. A counter holds the number
of sources of a phase. -/
structure Disseminates (member : ι → Prop) (cache : ι → ScheduleCache ι) : Prop where
  mem_dst : ∀ {a b p}, member a → (cache a).Active p → b ∈ (cache a).dstTopology p → member b
  mem_src : ∀ {a b p}, member b → (cache b).Active p → a ∈ (cache b).srcTopology p → member a
  matching : ∀ {a b p}, member a → member b → ((cache a).Active p ∧ b ∈ (cache a).dstTopology p ↔
      (cache b).Active p ∧ a ∈ (cache b).srcTopology p)
  nodup_src : ∀ {a p}, member a → (cache a).Active p → ((cache a).srcTopology p).Nodup
  nodup_dst : ∀ {a p}, member a → (cache a).Active p → ((cache a).dstTopology p).Nodup
  src_le : ∀ {a p}, member a → (cache a).Active p → ((cache a).srcTopology p).length ≤ 127
  reaches : ∀ {a b}, member a → member b → ∃ n, Reaches (activeSources cache) n a b

variable [DecidableEq ι]

def edge (a b : ι) (p k : ℕ) : Msg ι := ⟨a, b, p, bit k, k⟩

/-- How many sources of a phase have been heard from in a round. -/
def heard (cache : ι → ScheduleCache ι) (got : List (Msg ι)) (b : ι) (p k : ℕ) : ℕ :=
  ((cache b).srcTopology p).countP fun a => edge a b p k ∈ got

def Past (starts phase : ℕ) (p k : ℕ) : Prop := k < starts ∨ (k = starts ∧ p < phase)

open PAMI.Math BarrierExec

section Invariant

variable [DecidableEq ι] {member : ι → Prop} {cache : ι → ScheduleCache ι}
  {exec : ι → BarrierExec} {starts bound : ι → ℕ} {net got : List (Msg ι)} {m : Msg ι} {a : ι} {p k : ℕ}

/-- The two rows of counters are those of the round of the rank and of the next one. A rank is past a phase when all messages
of it have been counted, and has sent only in the phases below `bound`, and nothing twice. -/
structure Inv (member : ι → Prop) (cache : ι → ScheduleCache ι) (exec : ι → BarrierExec)
    (starts bound : ι → ℕ) (net got : List (Msg ι)) : Prop where
  start_le : ∀ {a}, member a → (cache a).start ≤ (exec a).phase
  le_finish : ∀ {a}, member a → (exec a).phase ≤ (cache a).finish
  bound_le : ∀ {a}, member a → bound a ≤ (exec a).phase + 1
  begun : ∀ {a}, member a → (exec a).phase < (cache a).finish → starts a ≠ 0
  iteration : ∀ {a}, member a → (exec a).iteration = bit (starts a)
  row : ∀ {a p}, member a → (cache a).Active p → (exec a).phasevec p (bit (starts a)) =
      (if starts a = 0 then 0 else BitVec.ofNat 8 ((cache a).srcTopology p).length) -
        BitVec.ofNat 8 (heard cache got a p (starts a))
  next : ∀ {a p}, member a → (cache a).Active p →
    (exec a).phasevec p (bit (starts a + 1)) = -BitVec.ofNat 8 (heard cache got a p (starts a + 1))
  past : ∀ {a p k c}, member a → (cache a).Active p → k ≠ 0 →
    Past (starts a) (exec a).phase p k → c ∈ (cache a).srcTopology p → edge c a p k ∈ got
  sent : ∀ {m}, m ∈ net ++ got → member m.src ∧ (cache m.src).Active m.phase ∧
    m.dst ∈ (cache m.src).dstTopology m.phase ∧ m.iteration = bit m.round ∧ m.round ≠ 0 ∧
    Past (starts m.src) (bound m.src) m.phase m.round
  nodup : (net ++ got).Nodup

omit [DecidableEq ι] in
theorem eq_edge (hit : m.iteration = bit m.round) : m = edge m.src m.dst m.phase m.round := by
  cases m
  exact congrArg (fun b => Msg.mk _ _ _ b _) hit

omit [DecidableEq ι] in
theorem mem_activeSources {c e : ι} (hc : c ∈ activeSources cache p e) :
    (cache e).Active p ∧ c ∈ (cache e).srcTopology p := by
  rw [activeSources] at hc
  split_ifs at hc with hact
  · exact ⟨hact,hc⟩
  · exact absurd hc not_mem_nil

namespace Inv

theorem started_of_reaches (h : Inv member cache exec starts bound net got) {n : ℕ} {e : ι}
    (hr : Reaches (activeSources cache) n a e) (he : member e) (hk : k≠0)
    (hat : k < starts e ∨ (k = starts e ∧ n≤(exec e).phase)) : k ≤ starts a := by
  induction hr with
  | refl p a =>
    rcases hat with hlt | ⟨heq,-⟩
    · exact hlt.le
    · exact heq.le
  | @step p q a c e _ hq hc ih =>
    obtain ⟨hact,hsrc⟩ := mem_activeSources hc
    have hpast : Past (starts e) (exec e).phase q k := by
      rcases hat with hlt | ⟨heq,hle⟩
      · exact .inl hlt
      · exact .inr ⟨heq,lt_of_lt_of_le hq hle⟩
    have hm := h.past he hact hk hpast hsrc
    obtain ⟨hmem,-,-,-,-,hsn⟩ := h.sent (mem_append_right net hm)
    apply ih hmem
    rcases hsn with hlt | ⟨heq,hlt⟩
    · exact .inl hlt
    · exact .inr ⟨heq,le_of_lt_succ (lt_of_lt_of_le hlt (h.bound_le hmem))⟩

section

variable (hd : Disseminates member cache) (h : Inv member cache exec starts bound net got)
include hd h

theorem started {b : ι} (ha : member a) (hb : member b)
    (hat : k < starts b ∨ (k = starts b ∧ (exec b).phase=(cache b).finish)) : k ≤ starts a := by
  by_cases hk : k=0
  · exact hk ▸ zero_le _
  · obtain ⟨n,hr⟩ := hd.reaches ha hb
    cases hr with
    | refl =>
      rcases hat with hlt | ⟨heq,-⟩
      · exact hlt.le
      · exact heq.le
    | @step _ q _ c _ hr hq hc =>
      have hfns := (mem_activeSources hc).1.2
      refine h.started_of_reaches (n := q+1) (.step hr (lt_succ_self q) hc) hb hk ?_
      rcases hat with hlt | ⟨heq,hfin⟩
      · exact .inl hlt
      · exact .inr ⟨heq,hfin ▸ hfns⟩

theorem round_le (hm : m ∈ net ++ got) : m.round ≤ starts m.dst+1 := by
  obtain ⟨hsrc,hact,hdst,-,-,hsn⟩ := h.sent hm
  have hlt : m.round-1 ≤ starts m.dst := by
    by_cases h0 : m.round=0
    · rw [h0]
      exact zero_le _
    · refine h.started hd (hd.mem_dst hsrc hact hdst) hsrc (.inl ?_)
      rcases hsn with hlt | ⟨heq,-⟩ <;> omega
  omega

theorem mem_src (hm : m ∈ net ++ got) :
    member m.dst ∧ (cache m.dst).Active m.phase ∧ m.src ∈ (cache m.dst).srcTopology m.phase := by
  obtain ⟨hsrc,hact,hdst,-,-,-⟩ := h.sent hm
  have hmem := hd.mem_dst hsrc hact hdst
  exact ⟨hmem,(hd.matching hsrc hmem).mp ⟨hact,hdst⟩⟩

theorem not_past (hm : m ∈ net) : ¬ Past (starts m.dst) (exec m.dst).phase m.phase m.round := by
  intro hpast
  obtain ⟨hdst,hact,hsrc⟩ := h.mem_src hd (mem_append_left got hm)
  obtain ⟨-,-,-,hit,h0,-⟩ := h.sent (mem_append_left got hm)
  have hgot := h.past hdst hact h0 hpast hsrc
  rw [← eq_edge hit] at hgot
  exact disjoint_of_nodup_append h.nodup hm hgot

theorem round_cases (hm : m ∈ net) : m.round = starts m.dst ∨ m.round = starts m.dst+1 := by
  have hle := h.round_le hd (mem_append_left got hm)
  have hge : starts m.dst ≤ m.round := by
    by_contra hlt
    exact h.not_past hd hm (.inl (not_le.mp hlt))
  omega

omit hd h in
theorem heard_eq_length (h : Inv member cache exec starts bound net got) (ha : member a)
    (hact : (cache a).Active p) (hk : k≠0) (hpast : Past (starts a) (exec a).phase p k) :
    heard cache got a p k = ((cache a).srcTopology p).length := by
  rw [heard,countP_eq_length]
  intro c hc
  exact decide_eq_true (h.past ha hact hk hpast hc)

theorem heard_eq_zero (hk : k=0 ∨ starts a+1 < k) : heard cache got a p k = 0 := by
  rw [heard,countP_eq_zero]
  intro c _ hc
  have hm := mem_append_right net (of_decide_eq_true hc)
  have hrou := h.round_le hd hm
  obtain ⟨-,-,-,-,h0,-⟩ := h.sent hm
  simp only [edge] at hrou h0
  omega

end

end Inv

theorem nonpos_ofNat (signed : Bool) {x : ℕ} (hx : x≤127) :
    nonpos signed (BitVec.ofNat 8 x) = true ↔ x=0 := by
  have hnat : (BitVec.ofNat 8 x).toNat=x := by
    rw [BitVec.toNat_ofNat]
    omega
  have hint : (BitVec.ofNat 8 x).toInt=x := by rw [BitVec.toInt_eq_toNat_of_lt (by rw [hnat]; omega),hnat]
  cases signed with
  | false => simp [nonpos,hnat]
  | true =>
    rw [nonpos,if_pos rfl,hint,decide_eq_true_eq]
    omega

theorem ofNat_sub_ofNat {x y : ℕ} (h : y≤x) :
    BitVec.ofNat 8 x-BitVec.ofNat 8 y = BitVec.ofNat 8 (x-y) := by
  obtain ⟨z,rfl⟩ := Nat.exists_eq_add_of_le h
  rw [BitVec.ofNat_add,Nat.add_sub_cancel_left]
  ring

theorem Inv.nonpos_iff (hd : Disseminates member cache) (h : Inv member cache exec starts bound net got)
    (signed : Bool) (ha : member a) (hact : (cache a).Active p) (h0 : starts a ≠ 0) :
    nonpos signed ((exec a).phasevec p (bit (starts a))) = true ↔
      heard cache got a p (starts a) = ((cache a).srcTopology p).length := by
  have hle : heard cache got a p (starts a)≤((cache a).srcTopology p).length := countP_le_length
  have hsrc := hd.src_le ha hact
  rw [h.row ha hact,if_neg h0,ofNat_sub_ofNat hle,nonpos_ofNat signed (by omega)]
  omega

section Counting

theorem countP_insert {α : Type*} {l : List α} (hl : l.Nodup) {x : α} (hx : x ∈ l)
    {q q' : α → Bool} (hq : q x = false) (hq' : q' x = true)
    (hoth : ∀ a, a≠x → q' a = q a) : l.countP q' = l.countP q+1 := by
  induction l with
  | nil => exact absurd hx not_mem_nil
  | cons y l ih =>
    obtain ⟨hy,hl⟩ := nodup_cons.mp hl
    rw [countP_cons,countP_cons]
    rcases mem_cons.mp hx with rfl | hx
    · have hsm : l.countP q' = l.countP q := by
        apply countP_congr
        intro a ha
        rw [hoth a (ne_of_mem_of_not_mem ha hy)]
      rw [hsm,hq,hq',if_pos rfl,if_neg Bool.false_ne_true]
    · rw [ih hl hx,hoth y (ne_of_mem_of_not_mem hx hy).symm]
      omega

theorem heard_cons (hit : m.iteration = bit m.round) (hnot : m ∉ got)
    (hnd : ((cache m.dst).srcTopology m.phase).Nodup) (hsrc : m.src ∈ (cache m.dst).srcTopology m.phase) :
    heard cache (m :: got) m.dst m.phase m.round = heard cache got m.dst m.phase m.round+1 := by
  refine countP_insert hnd hsrc ?_ ?_ ?_
  · rw [← eq_edge hit]
    exact decide_eq_false hnot
  · rw [← eq_edge hit]
    exact decide_eq_true mem_cons_self
  · intro a ha
    have hne : edge a m.dst m.phase m.round≠m := fun h => ha (congrArg Msg.src h)
    rw [decide_eq_decide,mem_cons]
    exact or_iff_right hne

theorem heard_cons_ne {b : ι} (hne : ¬ (b=m.dst ∧ p=m.phase ∧ k=m.round)) :
    heard cache (m :: got) b p k = heard cache got b p k := by
  apply countP_congr
  intro a _
  have hedge : edge a b p k≠m := by
    rintro rfl
    exact hne ⟨rfl,rfl,rfl⟩
  rw [decide_eq_true_eq,decide_eq_true_eq,mem_cons]
  exact or_iff_right hedge

end Counting

end Invariant

end PAMI.Executor
