import Mathlib.Data.Nat.Bitwise
import PAMI.Math.CircularBuffer
import PAMI.Math.Runs

namespace PAMI.Fifo

open PAMI.Math Function List Nat

/-- Where a producer is in `producePacket_impl`: with the number it got from the counter, before and
after it has written the packet. -/
inductive ProducerStep (V : Type*) where
  | idle
  | reserved (ticket : ℕ) (packet : V)
  | written (ticket : ℕ) (packet : V)
  deriving DecidableEq, Repr

/-- The last thing the consumer has done in `consumePacket_impl`. -/
inductive ConsumerStep where
  | idle
  | tested
  | cleared
  | consumed
  | advanced
  deriving DecidableEq, Repr

/-- A `WrapFifo` between the steps of its producers and its consumer; beside it, all packets in the order of their reservation
and what the consumer has read. -/
structure WrapFifo (ι V : Type*) where
  tail : ℕ
  upper : ℕ
  head : ℕ
  active : ℕ → Bool
  packet : ℕ → Option V
  producer : ι → ProducerStep V
  consumer : ConsumerStep
  reserved : List V
  consumed : List (Option V)

/-- The steps of producers and consumer. -/
inductive FifoStep (ι V : Type*) where
  | reserve (i : ι) (v : V)
  | write (i : ι)
  | activate (i : ι)
  | test
  | clear
  | consume
  | advance
  | raise

namespace WrapFifo

variable {ι V : Type*} (size : ℕ)

/-- The slot of a number, `tail & mask`. -/
def slot (n : ℕ) : ℕ := n &&& (size - 1)

/-- After `initialize_impl` and `packet_initialize`. -/
def initial : WrapFifo ι V := ⟨0, size, 0, fun _ => false, fun _ => none, fun _ => .idle, .idle, [], []⟩

/-- The counter has reached its bound, so that `producePacket` fails. -/
def Full (s : WrapFifo ι V) : Prop := s.tail = s.upper

instance (s : WrapFifo ι V) : Decidable s.Full := inferInstanceAs (Decidable (_ = _))

/-- One step; `none` if it is not the turn of the one who takes it. -/
def step [DecidableEq ι] (s : WrapFifo ι V) : FifoStep ι V → Option (WrapFifo ι V)
  | .reserve i v =>
    match s.producer i with
    | .idle =>
      if s.Full then some s
      else some { s with
        tail := s.tail + 1, producer := update s.producer i (.reserved s.tail v)
        reserved := s.reserved ++ [v] }
    | _ => none
  | .write i =>
    match s.producer i with
    | .reserved t v => some { s with
        packet := update s.packet (slot size t) (some v)
        producer := update s.producer i (.written t v) }
    | _ => none
  | .activate i =>
    match s.producer i with
    | .written t _ => some { s with
        active := update s.active (slot size t) true
        producer := update s.producer i .idle }
    | _ => none
  | .test =>
    if s.consumer = .idle then
      some (if s.active (slot size s.head) then { s with consumer := .tested } else s)
    else none
  | .clear =>
    if s.consumer = .tested then
      some { s with
        active := update s.active (slot size s.head) false, consumer := .cleared }
    else none
  | .consume =>
    if s.consumer = .cleared then
      some { s with
        consumed := s.consumed ++ [s.packet (slot size s.head)], consumer := .consumed }
    else none
  | .advance =>
    if s.consumer = .consumed then some { s with head := s.head + 1, consumer := .advanced }
    else none
  | .raise =>
    if s.consumer = .advanced then some { s with upper := s.upper + 1, consumer := .idle }
    else none

/-- The producer has taken a number and not yet set the flag. -/
def Holds (s : WrapFifo ι V) (i : ι) (t : ℕ) (v : V) : Prop :=
  s.producer i = .reserved t v ∨ s.producer i = .written t v

def Complete (s : WrapFifo ι V) (t : ℕ) : Prop := ∀ i v, ¬ s.Holds i t v

section Slots

variable {size} {k : ℕ}

theorem slot_eq_mod (hsi : size=2^k) (n : ℕ) : slot size n = n%size := by
  rw [slot,hsi,and_two_pow_sub_one_eq_mod]

theorem slot_injective (hsi : size=2^k) {a t t' : ℕ} (ht : a≤t ∧ t<a+size)
    (ht' : a≤t' ∧ t'<a+size) (h : slot size t = slot size t') : t=t' := by
  rw [slot_eq_mod hsi,slot_eq_mod hsi] at h
  rcases lt_trichotomy t t' with hlt | heq | hgt
  · exact absurd h (mod_ne_mod hlt (by omega))
  · exact heq
  · exact absurd h.symm (mod_ne_mod hgt (by omega))

end Slots

variable {ι V : Type*} {size : ℕ}

section Invariant

variable {k : ℕ} {s s' : WrapFifo ι V} {t : ℕ} {v : V}

/-- The counters move together: the bound is a round ahead of the head, except that it is raised
last, and the head follows the packets read. -/
structure Counters (size : ℕ) (s : WrapFifo ι V) : Prop where
  upper : s.upper + (if s.consumer = .advanced then 1 else 0) = s.head + size
  count : s.consumed.length = s.head + if s.consumer = .consumed then 1 else 0
  tail : s.tail = s.reserved.length
  le_tail : s.consumed.length ≤ s.tail
  tail_le : s.tail ≤ s.upper
  current : s.consumer = .tested ∨ s.consumer = .cleared → s.head < s.tail

/-- The invariant of the fifo. A number between those read and the tail is held by one producer, or
its packet is complete and its flag is set until the consumer clears it. -/
structure Inv (size : ℕ) (s : WrapFifo ι V) : Prop where
  counters : Counters size s
  consumed : s.consumed = (s.reserved.take s.consumed.length).map some
  holds : ∀ i t v, s.Holds i t v → (s.consumed.length ≤ t ∧ t < s.tail) ∧ s.reserved[t]? = some v
  distinct : ∀ i j t v w, s.Holds i t v → s.Holds j t w → i = j
  written : ∀ i t v, s.producer i = .written t v → s.packet (slot size t) = some v
  complete : ∀ t, s.consumed.length ≤ t → t < s.tail → s.Complete t → s.packet (slot size t) = s.reserved[t]? ∧
      (s.active (slot size t) = true ∨ (t = s.head ∧ s.consumer = .cleared))
  flags : ∀ x, s.active x = true → ∃ t, (s.consumed.length ≤ t ∧ t < s.tail) ∧ slot size t = x ∧
    s.Complete t ∧ ¬ (t = s.head ∧ s.consumer = .cleared)
  current : s.consumer = .tested ∨ s.consumer = .cleared → s.Complete s.head

theorem Counters.window (h : Counters size s) (ht : s.consumed.length≤t ∧ t < s.tail) :
    s.head≤t ∧ t < s.head+size := by
  obtain ⟨hupp,hcou,-,-,hta,-⟩ := h
  split_ifs at hupp hcou <;> omega

theorem initial_inv : Inv size (initial size : WrapFifo ι V) := by
  refine ⟨⟨by simp [initial],rfl,rfl,le_refl _,zero_le _,?_⟩,rfl,?_,?_,nofun,?_,nofun,?_⟩
  · rintro (h | h) <;> cases h
  · rintro i t v (h | h) <;> cases h
  · rintro i j t v w (h | h) <;> cases h
  · intro t _ ht
    exact absurd ht (Nat.not_lt_zero t)
  · rintro (h | h) <;> cases h

section

variable [DecidableEq ι] {i : ι} {p : ProducerStep V} {s' : WrapFifo ι V} (hs : s'.producer = update s.producer i p)
include hs

theorem holds_update {j : ι} :
    s'.Holds j t v ↔ if j=i then p = .reserved t v ∨ p = .written t v else s.Holds j t v := by
  rw [Holds,hs]
  split_ifs with hij
  · rw [hij,update_self]
  · rw [update_of_ne hij]
    rfl

theorem complete_update : s'.Complete t ↔ (∀ v, p ≠ .reserved t v ∧ p ≠ .written t v) ∧
      ∀ j, j≠i → ∀ v, ¬ s.Holds j t v := by
  constructor
  · intro h
    constructor
    · intro v
      have hi := h i v
      rw [holds_update hs,if_pos rfl,not_or] at hi
      exact hi
    · intro j hj v
      have hj' := h j v
      rw [holds_update hs,if_neg hj] at hj'
      exact hj'
  · rintro ⟨hi,hj⟩ j v
    rw [holds_update hs]
    split_ifs with hij
    · exact not_or.mpr (hi v)
    · exact hj j hij v

end

section

variable (h : Inv size s) {i : ι}
include h

theorem inv_reserve [DecidableEq ι] (hid : s.producer i = .idle) (hfull : ¬ s.Full) : Inv size { s with
      tail := s.tail+1, producer := update s.producer i (.reserved s.tail v)
      reserved := s.reserved ++ [v] } := by
  have hc := h.counters
  have hlen : s.tail=s.reserved.length := hc.tail
  have hget {t : ℕ} (ht : t < s.tail) : (s.reserved ++ [v])[t]? = s.reserved[t]? :=
    List.getElem?_append_left (hlen ▸ ht)
  have hnn {t : ℕ} {w : V} : ¬ s.Holds i t w := by
    rintro (h | h)
    · rw [hid] at h
      cases h
    · rw [hid] at h
      cases h
  generalize hs' : { s with
    tail := s.tail+1, producer := update s.producer i (.reserved s.tail v)
    reserved := s.reserved ++ [v] } = s'
  have hp : s'.producer=update s.producer i (.reserved s.tail v) := by rw [← hs']
  have hcom {t : ℕ} (ht : t < s.tail) : s'.Complete t ↔ s.Complete t := by
    rw [complete_update hp]
    constructor
    · rintro ⟨-,hots⟩ j w
      by_cases hj : j=i
      · rw [hj]
        exact hnn
      · exact hots j hj w
    · intro hall
      refine ⟨?_,fun j _ w => hall j w⟩
      intro w
      constructor
      · intro heq
        cases heq
        exact absurd ht (lt_irrefl _)
      · nofun
  have hnew : ¬ s'.Complete s.tail := by
    intro hall
    exact hall i v (.inl (by rw [hp,update_self]))
  subst hs'
  refine ⟨⟨hc.upper,hc.count,?_,?_,?_,?_⟩,?_,?_,?_,?_,?_,?_,?_⟩
  · simp [hlen]
  · exact le_succ_of_le hc.le_tail
  · exact lt_of_le_of_ne hc.tail_le hfull
  · intro hcur
    exact lt_succ_of_lt (hc.current hcur)
  · rw [take_append_of_le_length (hlen ▸ hc.le_tail)]
    exact h.consumed
  · intro j t w hj
    rw [holds_update hp] at hj
    split_ifs at hj with hij
    · rcases hj with hj | hj
      · cases hj
        refine ⟨⟨hc.le_tail,lt_succ_self _⟩,?_⟩
        simp [hlen]
      · cases hj
    · obtain ⟨ht,hw⟩ := h.holds j t w hj
      refine ⟨⟨ht.1,lt_succ_of_lt ht.2⟩,?_⟩
      exact (hget ht.2).trans hw
  · intro j j' t w w' hj hj'
    rw [holds_update hp] at hj hj'
    split_ifs at hj hj' with h1 h2 h2
    · rw [h1,h2]
    · obtain ⟨ht,-⟩ := h.holds j' t w' hj'
      rcases hj with hj | hj
      · cases hj
        exact absurd ht.2 (lt_irrefl _)
      · cases hj
    · obtain ⟨ht,-⟩ := h.holds j t w hj
      rcases hj' with hj' | hj'
      · cases hj'
        exact absurd ht.2 (lt_irrefl _)
      · cases hj'
    · exact h.distinct j j' t w w' hj hj'
  · intro j t w hj
    by_cases hij : j=i
    · rw [hp,hij,update_self] at hj
      cases hj
    · rw [hp,update_of_ne hij] at hj
      exact h.written j t w hj
  · intro t ht hlt hall
    have hne : t≠s.tail := by
      rintro rfl
      exact hnew hall
    have hlt' : t < s.tail := lt_of_le_of_ne (le_of_lt_succ hlt) hne
    show _ = (s.reserved ++ [v])[t]? ∧ _
    rw [hget hlt']
    exact h.complete t ht hlt' ((hcom hlt').mp hall)
  · intro x hx
    obtain ⟨t,ht,hsl,hall,hnot⟩ := h.flags x hx
    exact ⟨t,⟨ht.1,lt_succ_of_lt ht.2⟩,hsl,(hcom ht.2).mpr hall,hnot⟩
  · intro hcur
    exact (hcom (hc.current hcur)).mpr (h.current hcur)

theorem Inv.slot_ne (hsi : size=2^k) {t' : ℕ} (ht : s.consumed.length≤t ∧ t < s.tail)
    (ht' : s.consumed.length≤t' ∧ t' < s.tail) (hne : t≠t') : slot size t ≠ slot size t' := fun heq =>
  hne (slot_injective hsi (h.counters.window ht) (h.counters.window ht') heq)

omit h in
theorem inv_write [DecidableEq ι] (hsi : size=2^k) (h : Inv size s) (hi : s.producer i = .reserved t v) :
    Inv size { s with
      packet := update s.packet (slot size t) (some v)
      producer := update s.producer i (.written t v) } := by
  generalize hs' : { s with
    packet := update s.packet (slot size t) (some v)
    producer := update s.producer i (.written t v) } = s'
  have hp : s'.producer=update s.producer i (.written t v) := by rw [← hs']
  have hhl : s.Holds i t v := .inl hi
  have hhol (j : ι) (t' : ℕ) (w : V) : s'.Holds j t' w ↔ s.Holds j t' w := by
    rw [holds_update hp]
    split_ifs with hij
    · rw [hij,Holds,hi]
      simp
    · rfl
  have hcom (t' : ℕ) : s'.Complete t' ↔ s.Complete t' := by simp only [Complete,hhol]
  have hoth {t' : ℕ} (ht' : s.consumed.length≤t' ∧ t' < s.tail) (hne : t'≠t) :
      update s.packet (slot size t) (some v) (slot size t') = s.packet (slot size t') :=
    update_of_ne (h.slot_ne hsi ht' (h.holds i t v hhl).1 hne) _ _
  subst hs'
  refine ⟨{ h.counters with },h.consumed,?_,?_,?_,?_,?_,?_⟩
  · intro j t' w hj
    exact h.holds j t' w ((hhol j t' w).mp hj)
  · intro j j' t' w w' hj hj'
    exact h.distinct j j' t' w w' ((hhol j t' w).mp hj) ((hhol j' t' w').mp hj')
  · intro j t' w hj
    by_cases hij : j=i
    · rw [hp,hij,update_self] at hj
      cases hj
      exact update_self _ _ _
    · rw [hp,update_of_ne hij] at hj
      have hj' : s.Holds j t' w := .inr hj
      have hne : t'≠t := by
        rintro rfl
        exact hij (h.distinct j i t' w v hj' hhl)
      exact (hoth (h.holds j t' w hj').1 hne).trans (h.written j t' w hj)
  · intro t' ht' hlt hall
    rw [hcom] at hall
    have hne : t'≠t := by
      rintro rfl
      exact hall i v hhl
    obtain ⟨hpac,hact⟩ := h.complete t' ht' hlt hall
    exact ⟨(hoth ⟨ht',hlt⟩ hne).trans hpac,hact⟩
  · intro x hx
    obtain ⟨t',ht',hsl,hall,hnot⟩ := h.flags x hx
    exact ⟨t',ht',hsl,(hcom t').mpr hall,hnot⟩
  · intro hcur
    exact (hcom _).mpr (h.current hcur)

theorem inv_activate [DecidableEq ι] (hi : s.producer i = .written t v) : Inv size { s with
      active := update s.active (slot size t) true
      producer := update s.producer i .idle } := by
  generalize hs' : { s with
    active := update s.active (slot size t) true
    producer := update s.producer i .idle } = s'
  have hp : s'.producer=update s.producer i .idle := by rw [← hs']
  have hhl : s.Holds i t v := .inr hi
  have hhol {j : ι} {t' : ℕ} {w : V} (hj : s'.Holds j t' w) : j≠i ∧ s.Holds j t' w := by
    rw [holds_update hp] at hj
    split_ifs at hj with hij
    · rcases hj with hj | hj <;> cases hj
    · exact ⟨hij,hj⟩
  have hmono {t' : ℕ} (hall : s.Complete t') : s'.Complete t' := fun j w hj => hall j w (hhol hj).2
  have hthis : s'.Complete t := by
    intro j w hj
    obtain ⟨hij,hj⟩ := hhol hj
    exact hij (h.distinct j i t w v hj hhl)
  have hold {t' : ℕ} (hne : t'≠t) (hall : s'.Complete t') : s.Complete t' := by
    intro j w hj
    by_cases hij : j=i
    · rw [hij] at hj
      rcases hj with hj | hj
      · rw [hi] at hj
        cases hj
      · rw [hi] at hj
        cases hj
        exact hne rfl
    · exact ((complete_update hp).mp hall).2 j hij w hj
  have hset {x : ℕ} (hx : s.active x=true) :
      update s.active (slot size t) true x=true := by
    rw [update_apply]
    split_ifs
    · rfl
    · exact hx
  subst hs'
  refine ⟨{ h.counters with },h.consumed,?_,?_,?_,?_,?_,?_⟩
  · intro j t' w hj
    exact h.holds j t' w (hhol hj).2
  · intro j j' t' w w' hj hj'
    exact h.distinct j j' t' w w' (hhol hj).2 (hhol hj').2
  · intro j t' w hj
    by_cases hij : j=i
    · rw [hp,hij,update_self] at hj
      cases hj
    · rw [hp,update_of_ne hij] at hj
      exact h.written j t' w hj
  · intro t' ht' hlt hall
    by_cases hne : t'=t
    · rw [hne]
      refine ⟨?_,.inl (update_self _ _ _)⟩
      exact (h.written i t v hi).trans (h.holds i t v hhl).2.symm
    · obtain ⟨hpac,hact⟩ := h.complete t' ht' hlt (hold hne hall)
      refine ⟨hpac,?_⟩
      rcases hact with hact | hcle
      · exact .inl (hset hact)
      · exact .inr hcle
  · intro x hx
    by_cases hxt : x=slot size t
    · refine ⟨t,(h.holds i t v hhl).1,hxt.symm,hthis,?_⟩
      rintro ⟨hhe,hcle⟩
      have hcur := h.current (.inr hcle) i v
      rw [← show t=s.head from hhe] at hcur
      exact hcur hhl
    · have hx' : s.active x=true := by
        have hupd : update s.active (slot size t) true x=true := hx
        rw [update_of_ne hxt] at hupd
        exact hupd
      obtain ⟨t',ht',hsl,hall,hnot⟩ := h.flags x hx'
      exact ⟨t',ht',hsl,hmono hall,hnot⟩
  · intro hcur
    exact hmono (h.current hcur)

omit h in
theorem inv_test (hsi : size=2^k) (h : Inv size s) (hid : s.consumer = .idle)
    (hact : s.active (slot size s.head) = true) : Inv size { s with consumer := .tested } := by
  have hc := h.counters
  have hupp := hc.upper
  have hcou := hc.count
  simp only [hid,reduceCtorEq,if_false,add_zero] at hupp hcou
  obtain ⟨t,ht,hsl,hall,-⟩ := h.flags _ hact
  have hta := hc.tail_le
  have heq : t=s.head := slot_injective hsi (hc.window ht) ⟨le_refl _,by omega⟩ hsl
  rw [heq] at ht hall
  refine ⟨⟨?_,?_,hc.tail,hc.le_tail,hc.tail_le,fun _ => ht.2⟩,h.consumed,h.holds,h.distinct,
    h.written,?_,?_,fun _ => hall⟩
  · simpa using hupp
  · simpa using hcou
  · intro t' ht' hlt hall'
    obtain ⟨hpac,hflag | hcle⟩ := h.complete t' ht' hlt hall'
    · exact ⟨hpac,.inl hflag⟩
    · exact absurd (hid.symm.trans hcle.2) (by decide)
  · intro x hx
    obtain ⟨t',ht',hsl',hall',-⟩ := h.flags x hx
    exact ⟨t',ht',hsl',hall',fun hcl => absurd hcl.2 (by simp)⟩

omit h in
theorem inv_clear (hsi : size=2^k) (h : Inv size s) (htes : s.consumer = .tested) : Inv size { s with
      active := update s.active (slot size s.head) false, consumer := .cleared } := by
  have hc := h.counters
  have hupp := hc.upper
  have hcou := hc.count
  simp only [htes,reduceCtorEq,if_false,add_zero] at hupp hcou
  have hhe := hc.current (.inl htes)
  have hread : s.consumed.length ≤ s.head ∧ s.head < s.tail := ⟨hcou.le,hhe⟩
  refine ⟨⟨?_,?_,hc.tail,hc.le_tail,hc.tail_le,fun _ => hhe⟩,h.consumed,h.holds,h.distinct,
    h.written,?_,?_,fun _ => h.current (.inl htes)⟩
  · simpa using hupp
  · simpa using hcou
  · intro t ht hlt hall
    obtain ⟨hpac,hflag | hcle⟩ := h.complete t ht hlt hall
    · refine ⟨hpac,?_⟩
      by_cases hne : t=s.head
      · exact .inr ⟨hne,rfl⟩
      · refine .inl ?_
        show update s.active (slot size s.head) false (slot size t)=true
        rw [update_of_ne (h.slot_ne hsi ⟨ht,hlt⟩ hread hne)]
        exact hflag
    · exact absurd (htes.symm.trans hcle.2) (by decide)
  · intro x hx
    have hx' : update s.active (slot size s.head) false x=true := hx
    by_cases hne : x=slot size s.head
    · rw [hne,update_self] at hx'
      cases hx'
    · rw [update_of_ne hne] at hx'
      obtain ⟨t,ht,hsl,hall,-⟩ := h.flags x hx'
      refine ⟨t,ht,hsl,hall,?_⟩
      rintro ⟨rfl,-⟩
      exact hne hsl.symm

theorem Inv.packet_head (hcle : s.consumer = .cleared) :
    s.packet (slot size s.head) = s.reserved[s.head]? ∧ s.head=s.consumed.length := by
  have hc := h.counters
  have hcou := hc.count
  simp only [hcle,reduceCtorEq,if_false,add_zero] at hcou
  have hhe := hc.current (.inr hcle)
  exact ⟨(h.complete s.head hcou.le hhe (h.current (.inr hcle))).1,hcou.symm⟩

theorem inv_consume (hcle : s.consumer = .cleared) : Inv size { s with
      consumed := s.consumed ++ [s.packet (slot size s.head)], consumer := .consumed } := by
  have hc := h.counters
  have hupp := hc.upper
  simp only [hcle,reduceCtorEq,if_false,add_zero] at hupp
  obtain ⟨hpac,hcou⟩ := h.packet_head hcle
  have hhe := hc.current (.inr hcle)
  have hlen : s.tail=s.reserved.length := hc.tail
  have hgt {t : ℕ} (ht : s.consumed.length≤t) (hne : t≠s.head) :
      (s.consumed ++ [s.packet (slot size s.head)]).length≤t := by
    rw [length_append,length_singleton]
    omega
  refine ⟨⟨?_,?_,hc.tail,?_,hc.tail_le,?_⟩,?_,?_,h.distinct,h.written,?_,?_,?_⟩
  · simpa using hupp
  · simp [hcou]
  · show (s.consumed ++ [_]).length ≤ s.tail
    rw [length_append,length_singleton]
    omega
  · rintro (hcur | hcur) <;> cases hcur
  · have hget : s.reserved[s.consumed.length]? = some (s.reserved[s.consumed.length]) :=
      List.getElem?_eq_getElem (by omega)
    rw [hpac,hcou,length_append,length_singleton,take_add_one,map_append,← h.consumed,hget]
    rfl
  · intro i t v hi
    obtain ⟨ht,hv⟩ := h.holds i t v hi
    refine ⟨⟨hgt ht.1 ?_,ht.2⟩,hv⟩
    rintro rfl
    exact h.current (.inr hcle) i v hi
  · intro t ht hlt hall
    have ht' : s.consumed.length+1≤t := by
      rw [length_append,length_singleton] at ht
      exact ht
    obtain ⟨hp,hflag | hcl⟩ := h.complete t (by omega) hlt hall
    · exact ⟨hp,.inl hflag⟩
    · omega
  · intro x hx
    obtain ⟨t,ht,hsl,hall,hnot⟩ := h.flags x hx
    refine ⟨t,⟨hgt ht.1 ?_,ht.2⟩,hsl,hall,?_⟩
    · intro heq
      exact hnot ⟨heq,hcle⟩
    · rintro ⟨-,hcl⟩
      cases hcl
  · rintro (hcur | hcur) <;> cases hcur

theorem Inv.move {head upper : ℕ} {pc : ConsumerStep} (hpc : s.consumer ≠ .cleared)
    (hpc' : pc ≠ .cleared ∧ pc ≠ .tested)
    (hc : Counters size { s with head := head, upper := upper, consumer := pc }) :
    Inv size { s with head := head, upper := upper, consumer := pc } := by
  refine ⟨hc,h.consumed,h.holds,h.distinct,h.written,?_,?_,?_⟩
  · intro t ht hlt hall
    obtain ⟨hp,hflag | hcl⟩ := h.complete t ht hlt hall
    · exact ⟨hp,.inl hflag⟩
    · exact absurd hcl.2 hpc
  · intro x hx
    obtain ⟨t,ht,hsl,hall,-⟩ := h.flags x hx
    exact ⟨t,ht,hsl,hall,fun hcl => hpc'.1 hcl.2⟩
  · rintro (hcur | hcur)
    · exact absurd hcur hpc'.2
    · exact absurd hcur hpc'.1

theorem inv_advance (hcns : s.consumer = .consumed) :
    Inv size { s with head := s.head+1, consumer := .advanced } := by
  have hc := h.counters
  have hupp := hc.upper
  have hcou := hc.count
  simp only [hcns,reduceCtorEq,if_false,if_true,add_zero] at hupp hcou
  refine h.move (by simp [hcns]) (by simp) ⟨?_,?_,hc.tail,hc.le_tail,hc.tail_le,?_⟩
  · simp [hupp,add_right_comm]
  · simpa using hcou
  · rintro (hcur | hcur) <;> cases hcur

theorem inv_raise (hadv : s.consumer = .advanced) :
    Inv size { s with upper := s.upper+1, consumer := .idle } := by
  have hc := h.counters
  have hupp := hc.upper
  have hcou := hc.count
  simp only [hadv,reduceCtorEq,if_false,if_true,add_zero] at hupp hcou
  refine h.move (by simp [hadv]) (by simp) ⟨?_,?_,hc.tail,hc.le_tail,le_succ_of_le hc.tail_le,?_⟩
  · simpa using hupp
  · simpa using hcou
  · rintro (hcur | hcur) <;> cases hcur

end

theorem step_inv [DecidableEq ι] (hsi : size=2^k) {a : FifoStep ι V} (h : Inv size s)
    (hs : step size s a = some s') : Inv size s' := by
  cases a with
  | reserve i v =>
    simp only [step] at hs
    split at hs
    · rename_i hid
      split_ifs at hs with hfull
      · cases hs
        exact h
      · cases hs
        exact inv_reserve h hid hfull
    · cases hs
  | write i =>
    simp only [step] at hs
    split at hs
    · rename_i hi
      cases hs
      exact inv_write hsi h hi
    · cases hs
  | activate i =>
    simp only [step] at hs
    split at hs
    · rename_i hi
      cases hs
      exact inv_activate h hi
    · cases hs
  | test =>
    simp only [step] at hs
    split_ifs at hs with hid hact
    · cases hs
      exact inv_test hsi h hid hact
    · cases hs
      exact h
  | clear =>
    simp only [step] at hs
    split_ifs at hs with hpc
    cases hs
    exact inv_clear hsi h hpc
  | consume =>
    simp only [step] at hs
    split_ifs at hs with hpc
    cases hs
    exact inv_consume h hpc
  | advance =>
    simp only [step] at hs
    split_ifs at hs with hpc
    cases hs
    exact inv_advance h hpc
  | raise =>
    simp only [step] at hs
    split_ifs at hs with hpc
    cases hs
    exact inv_raise h hpc

end Invariant

section Runs

variable {k : ℕ} {s : WrapFifo ι V}

/-- Exactly once and in order: packets are read in the order of their reservation, complete, their slots are written after
that, and a producer fails only while a whole round is reserved and not released. -/
structure ExactlyOnce (size : ℕ) (s : WrapFifo ι V) : Prop where
  overwrite : ∀ i t v, s.producer i = .reserved t v → ∀ t' < t, slot size t' = slot size t → t' < s.consumed.length
  complete : s.consumer = .cleared → s.Complete s.head ∧ s.head < s.tail ∧
    s.packet (slot size s.head) = s.reserved[s.consumed.length]?
  order : s.consumed = (s.reserved.take s.consumed.length).map some
  full : s.Full → s.reserved.length = s.consumed.length + size ∨ ((s.consumer = .consumed ∨ s.consumer = .advanced) ∧
      s.reserved.length + 1 = s.consumed.length + size)

theorem Inv.exactlyOnce (hsi : size=2^k) (h : Inv size s) : ExactlyOnce size s := by
  have hc := h.counters
  obtain ⟨hupp,hcou,hta,hle,hta',-⟩ := hc
  refine ⟨?_,?_,h.consumed,?_⟩
  · intro i t v hi t' hlt hsl
    obtain ⟨ht,-⟩ := h.holds i t v (.inl hi)
    by_contra hge
    have hne := slot_injective hsi (h.counters.window ⟨not_lt.mp hge,lt_trans hlt ht.2⟩)
      (h.counters.window ht) hsl
    omega
  · intro hcle
    obtain ⟨hpac,hhe⟩ := h.packet_head hcle
    rw [← hhe]
    exact ⟨h.current (.inr hcle),h.counters.current (.inr hcle),hpac⟩
  · intro hfull
    rw [Full] at hfull
    split_ifs at hupp hcou with hadv hcns hcns
    · exact absurd (hadv.symm.trans hcns) (by decide)
    · exact .inr ⟨.inr hadv,by omega⟩
    · exact .inr ⟨.inl hcns,by omega⟩
    · exact .inl (by omega)

/-- A fifo whose size is a power of two is exact in every run of its producers and its consumer. -/
theorem wrapFifo_exact [DecidableEq ι] (hsi : size = 2^k)
    (h : Run (step size) (fun _ _ => True) (initial size) s) : ExactlyOnce size s := by
  apply Inv.exactlyOnce hsi
  apply h.invariant initial_inv
  intro s a s' hinv _ hs
  exact step_inv hsi hinv hs

theorem wrapFifo_exact_two : ∃ s : WrapFifo ℕ ℕ,
    Run (step 2) (fun _ _ => True) (initial 2) s ∧ s.reserved = [10, 11] ∧ s.Full ∧ ExactlyOnce 2 s := by
  have hrun : Run (step 2) (fun _ _ => True) (initial 2 : WrapFifo ℕ ℕ) _ :=
    Run.refl.execEvents [.reserve 0 10,.reserve 1 11,.write 1,.activate 1,.test,.write 0]
      (fun _ _ _ => trivial) rfl
  exact ⟨_,hrun,rfl,rfl,wrapFifo_exact (k := 1) rfl hrun⟩

/-- The only slot is read, and still no packet can be produced: the bound is raised two steps
later. -/
theorem full_after_consume : ∃ s : WrapFifo ℕ ℕ, Run (step 1) (fun _ _ => True) (initial 1) s ∧ s.Full ∧
      ¬ (s.reserved.length = s.consumed.length + 1) := by
  have hrun : Run (step 1) (fun _ _ => True) (initial 1 : WrapFifo ℕ ℕ) _ :=
    Run.refl.execEvents [.reserve 0 10,.write 0,.activate 0,.test,.clear,.consume]
      (fun _ _ _ => trivial) rfl
  exact ⟨_,hrun,rfl,by decide⟩

end Runs

end WrapFifo

end PAMI.Fifo
