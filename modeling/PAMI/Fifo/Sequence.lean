import Mathlib.Data.List.Range
import PAMI.Fifo.WrapFifo

namespace PAMI.Fifo

open PAMI.Math Function List Nat

/-- `LinearFifo` or `WrapFifo`. -/
inductive FifoKind where
  | linear
  | wrap
  deriving DecidableEq, Repr

/-- A fifo between whole calls of `producePacket` and `consumePacket`, with what each producer keeps
in `_last_packet_produced`. Packets carry the number of packets produced before them. -/
structure SequencedFifo (ι : Type*) where
  tail : ℕ
  upper : ℕ
  head : ℕ
  active : ℕ → Bool
  packet : ℕ → ℕ
  lastPacketProduced : ι → ℤ
  produced : ℕ
  consumed : List ℕ
  own : ι → List ℕ

namespace SequencedFifo

open WrapFifo (slot)

variable {ι : Type*} [DecidableEq ι] (size : ℕ)

def initial : SequencedFifo ι := ⟨0, size, 0, fun _ => false, fun _ => 0, fun _ => -1, 0, [], fun _ => []⟩

def lastPacketConsumed (s : SequencedFifo ι) : ℤ := s.head - 1

/-- `ShmemDevice::activePackets` for the fifo of a context. -/
def activePackets (s : SequencedFifo ι) (i : ι) : Bool := s.lastPacketConsumed < s.lastPacketProduced i

def fill (s : SequencedFifo ι) (i : ι) (index sequence : ℕ) : SequencedFifo ι :=
  { s with
    packet := update s.packet index s.produced
    active := update s.active index true
    lastPacketProduced := update s.lastPacketProduced i sequence
    produced := s.produced + 1
    own := update s.own i (s.produced :: s.own i) }

/-- `producePacket_impl`. A `LinearFifo` takes the next index even when it fails. -/
def producePacket (s : SequencedFifo ι) (i : ι) : FifoKind → SequencedFifo ι × Bool
  | .linear =>
    if s.tail < size then (fill { s with tail := s.tail + 1 } i s.tail s.tail, true)
    else ({ s with tail := s.tail + 1 }, false)
  | .wrap =>
    if s.tail = s.upper then (s, false)
    else (fill { s with tail := s.tail + 1 } i (slot size s.tail) s.tail, true)

/-- `consumePacket_impl`. A `LinearFifo` starts again at the first slot after the last one. -/
def consumePacket (s : SequencedFifo ι) (kind : FifoKind) : SequencedFifo ι :=
  let index := slot size s.head
  if s.active index then
    let s := { s with
      active := update s.active index false
      consumed := s.consumed ++ [s.packet index], head := s.head + 1 }
    match kind with
    | .linear => if index = size - 1 then { s with tail := 0 } else s
    | .wrap => { s with upper := s.upper + 1 }
  else s

def step (kind : FifoKind) (s : SequencedFifo ι) : Option ι → Option (SequencedFifo ι)
  | some i => some (producePacket size s i kind).1
  | none => some (consumePacket size s kind)

section Invariant

variable {size} {k : ℕ} {kind : FifoKind} {s s' : SequencedFifo ι} {a : Option ι} {i : ι}

/-- Where the counters stand: a `WrapFifo` counts all packets, a `LinearFifo` those since a multiple
of its size. -/
def Counted (size : ℕ) (s : SequencedFifo ι) : FifoKind → Prop
  | .linear => ∃ b, size ∣ b ∧ (b ≤ s.head ∧ s.head < b + size) ∧
      s.produced = b + min s.tail size
  | .wrap => s.tail = s.produced ∧ s.upper = s.head + size

def sequence (size : ℕ) (n : ℕ) : FifoKind → ℕ
  | .linear => n % size
  | .wrap => n

/-- The packets from the head on are in their slots, the others are read in order. -/
structure Inv (size : ℕ) (kind : FifoKind) (s : SequencedFifo ι) : Prop where
  counted : Counted size s kind
  consumed : s.consumed = List.range s.head
  le : s.head ≤ s.produced
  window : s.produced ≤ s.head + size
  packets : ∀ n, s.head ≤ n → n < s.produced → s.packet (slot size n) = n ∧ s.active (slot size n) = true
  flags : ∀ x, s.active x = true → ∃ n, (s.head ≤ n ∧ n < s.produced) ∧ slot size n = x
  own : ∀ i, ∀ n ∈ s.own i, n < s.produced ∧
    ∃ m ∈ s.own i, n ≤ m ∧ s.lastPacketProduced i = sequence size m kind

omit [DecidableEq ι] in
theorem initial_inv (hpos : 0 < size) : Inv size kind (initial size : SequencedFifo ι) := by
  refine ⟨?_,rfl,le_refl _,zero_le _,?_,nofun,nofun⟩
  · cases kind with
    | linear => exact ⟨0,dvd_zero _,⟨le_refl _,by simpa [initial] using hpos⟩,by simp [initial]⟩
    | wrap => exact ⟨rfl,(zero_add _).symm⟩
  · intro n _ hn
    exact absurd hn (Nat.not_lt_zero n)

section

variable (hsi : size = 2^k) (h : Inv size kind s)
include hsi h

theorem inv_fill {index seq tail : ℕ} (hrm : s.produced < s.head+size)
    (hinx : index = slot size s.produced) (hseq : seq = sequence size s.produced kind)
    (hctd : Counted size (fill { s with tail := tail } i index seq) kind) :
    Inv size kind (fill { s with tail := tail } i index seq) := by
  have hoth {n : ℕ} (hn : s.head≤n) (hlt : n < s.produced) : slot size n≠index := by
    intro heq
    rw [hinx] at heq
    have := WrapFifo.slot_injective hsi (a := s.head) ⟨hn,by omega⟩ ⟨h.le,hrm⟩ heq
    omega
  refine ⟨hctd,h.consumed,le_succ_of_le h.le,hrm,?_,?_,?_⟩
  · intro n hn hlt
    show update s.packet index s.produced (slot size n)=n ∧ update s.active index true (slot size n)=true
    rcases Nat.lt_succ_iff_lt_or_eq.mp hlt with hlt | rfl
    · rw [update_of_ne (hoth hn hlt),update_of_ne (hoth hn hlt)]
      exact h.packets n hn hlt
    · rw [← hinx,update_self,update_self]
      exact ⟨rfl,rfl⟩
  · intro x hx
    have hx' : update s.active index true x=true := hx
    by_cases hxi : x=index
    · exact ⟨s.produced,⟨h.le,lt_succ_self _⟩,(hxi.trans hinx).symm⟩
    · rw [update_of_ne hxi] at hx'
      obtain ⟨n,hn,hsl⟩ := h.flags x hx'
      exact ⟨n,⟨hn.1,lt_succ_of_lt hn.2⟩,hsl⟩
  · intro j n hn
    show n < s.produced+1 ∧ ∃ m ∈ update s.own i (s.produced :: s.own i) j,
      n ≤ m ∧ update s.lastPacketProduced i (seq : ℤ) j = sequence size m kind
    have hn' : n ∈ update s.own i (s.produced :: s.own i) j := hn
    by_cases hj : j=i
    · rw [hj,update_self] at hn' ⊢
      have hle : n ≤ s.produced := by
        rcases mem_cons.mp hn' with rfl | hmem
        · exact le_refl _
        · exact (h.own i n hmem).1.le
      refine ⟨lt_succ_of_le hle,s.produced,mem_cons_self,hle,?_⟩
      rw [update_self,hseq]
    · rw [update_of_ne hj] at hn' ⊢
      rw [update_of_ne hj]
      obtain ⟨hlt,m,hm,hnm,hla⟩ := h.own j n hn'
      exact ⟨lt_succ_of_lt hlt,m,hm,hnm,hla⟩

omit hsi h in
theorem mod_of_round {b n : ℕ} (hb : size ∣ b) (hle : b≤n) (hlt : n<b+size) : n%size=n-b := by
  obtain ⟨c,rfl⟩ := hb
  obtain ⟨d,rfl⟩ := Nat.exists_eq_add_of_le hle
  rw [mul_add_mod,Nat.add_sub_cancel_left]
  exact mod_eq_of_lt (by omega)

theorem inv_produce (i : ι) : Inv size kind (producePacket size s i kind).1 := by
  have hctd := h.counted
  cases kind with
  | linear =>
    obtain ⟨b,hb,hhe,hpro⟩ := hctd
    rw [producePacket]
    split_ifs with hta
    · rw [min_eq_left hta.le] at hpro
      have hmod := mod_of_round hb (n := s.produced) (by omega) (by omega)
      apply inv_fill hsi h
      · omega
      · rw [WrapFifo.slot_eq_mod hsi]
        omega
      · show s.tail=s.produced%size
        omega
      · refine ⟨b,hb,hhe,?_⟩
        show s.produced+1=b+min (s.tail+1) size
        rw [min_eq_left hta]
        omega
    · refine { h with counted := ⟨b,hb,hhe,?_⟩ }
      show s.produced=b+min (s.tail+1) size
      rw [min_eq_right (by omega)] at hpro ⊢
      exact hpro
  | wrap =>
    obtain ⟨hta,hupp⟩ := hctd
    have hwin := h.window
    rw [producePacket]
    split_ifs with hfull
    · exact h
    · apply inv_fill hsi h
      · omega
      · rw [hta]
      · exact hta
      · exact ⟨by show s.tail+1=s.produced+1; omega,hupp⟩

omit [DecidableEq ι] in
theorem Inv.head_of_active (hact : s.active (slot size s.head) = true) :
    s.head < s.produced ∧ s.packet (slot size s.head) = s.head := by
  obtain ⟨n,hn,hsl⟩ := h.flags _ hact
  have hwin := h.window
  have heq : n=s.head := WrapFifo.slot_injective hsi (a := s.head) ⟨hn.1,by omega⟩ ⟨le_refl _,by omega⟩ hsl
  rw [heq] at hn
  exact ⟨hn.2,(h.packets _ (le_refl _) hn.2).1⟩

omit [DecidableEq ι] in
theorem inv_consume : Inv size kind (consumePacket size s kind) := by
  have hpos : 0 < size := hsi ▸ Nat.two_pow_pos k
  rw [consumePacket]
  simp only []
  by_cases hact : s.active (slot size s.head)=true
  · rw [if_pos hact]
    obtain ⟨hlt,hpac⟩ := h.head_of_active hsi hact
    have hwin := h.window
    have hread {tail upper : ℕ} (hctd : Counted size { s with
        tail := tail, upper := upper
        active := update s.active (slot size s.head) false
        consumed := s.consumed ++ [s.packet (slot size s.head)], head := s.head+1 } kind) :
        Inv size kind { s with
          tail := tail, upper := upper
          active := update s.active (slot size s.head) false
          consumed := s.consumed ++ [s.packet (slot size s.head)], head := s.head+1 } := by
      refine ⟨hctd,?_,hlt,?_,?_,?_,h.own⟩
      · show s.consumed ++ [_] = List.range (s.head+1)
        rw [h.consumed,hpac,range_succ]
      · show s.produced ≤ s.head+1+size
        omega
      · intro n hn hn'
        have hn : s.head+1≤n := hn
        have hn' : n < s.produced := hn'
        obtain ⟨hp,ha⟩ := h.packets n (by omega) hn'
        refine ⟨hp,?_⟩
        show update s.active (slot size s.head) false (slot size n)=true
        rw [update_of_ne]
        · exact ha
        · intro heq
          have := WrapFifo.slot_injective hsi (a := s.head) ⟨by omega,by omega⟩
            ⟨le_refl _,by omega⟩ heq
          omega
      · intro x hx
        have hx' : update s.active (slot size s.head) false x=true := hx
        by_cases hxh : x=slot size s.head
        · rw [hxh,update_self] at hx'
          cases hx'
        · rw [update_of_ne hxh] at hx'
          obtain ⟨n,hn,hsl⟩ := h.flags x hx'
          refine ⟨n,⟨Nat.lt_of_le_of_ne hn.1 ?_,hn.2⟩,hsl⟩
          rintro rfl
          exact hxh hsl.symm
    have hctd := h.counted
    cases kind with
    | linear =>
      obtain ⟨b,hb,hhe,hpro⟩ := hctd
      have hmod := mod_of_round hb hhe.1 hhe.2
      simp only [WrapFifo.slot_eq_mod hsi] at hread ⊢
      split_ifs with hla
      · apply hread
        refine ⟨b+size,Nat.dvd_add hb (Nat.dvd_refl _),⟨?_,?_⟩,?_⟩
        · show b+size ≤ s.head+1
          omega
        · show s.head+1<b+size+size
          omega
        · show s.produced=b+size+min 0 size
          omega
      · apply hread
        refine ⟨b,hb,⟨?_,?_⟩,hpro⟩
        · show b ≤ s.head+1
          omega
        · show s.head+1<b+size
          omega
    | wrap =>
      obtain ⟨hta,hupp⟩ := hctd
      apply hread
      exact ⟨hta,by show s.upper+1=s.head+1+size; omega⟩
  · rw [if_neg hact]
    exact h

theorem step_inv (hs : step size kind s a = some s') : Inv size kind s' := by
  cases a with
  | some i =>
    cases hs
    exact inv_produce hsi h i
  | none =>
    cases hs
    exact inv_consume hsi h

theorem run_inv (hrun : Run (step size kind) (fun _ _ => True) s s') : Inv size kind s' := by
  apply hrun.invariant h
  intro s a s' hinv _ hs
  exact step_inv hsi hinv hs

end

theorem own_step {n : ℕ} (hn : n ∈ s.own i) (hs : step size kind s a = some s') : n ∈ s'.own i := by
  have hfill {index seq tail : ℕ} {j : ι} :
      n ∈ (fill { s with tail := tail } j index seq).own i := by
    show n ∈ update s.own j (s.produced :: s.own j) i
    by_cases hij : i=j
    · rw [hij,update_self]
      exact mem_cons_of_mem _ (hij ▸ hn)
    · rw [update_of_ne hij]
      exact hn
  cases a with
  | some j =>
    cases hs
    cases kind with
    | linear =>
      rw [producePacket]
      split_ifs
      · exact hfill
      · exact hn
    | wrap =>
      rw [producePacket]
      split_ifs
      · exact hn
      · exact hfill
  | none =>
    cases hs
    rw [consumePacket]
    simp only []
    cases kind with
    | linear => split_ifs <;> exact hn
    | wrap => split_ifs <;> exact hn

theorem produce_success (h : Inv size kind s) (hs : producePacket size s i kind = (s', true)) :
    s'.lastPacketProduced i = sequence size s.produced kind ∧ s.produced ∈ s'.own i ∧
      s'.head=s.head ∧ s'.consumed=s.consumed := by
  have hctd := h.counted
  cases kind with
  | linear =>
    obtain ⟨b,hb,hhe,hpro⟩ := hctd
    rw [producePacket] at hs
    split_ifs at hs with hta
    · cases hs
      rw [min_eq_left hta.le] at hpro
      have hmod := mod_of_round hb (n := s.produced) (by omega) (by omega)
      refine ⟨?_,?_,rfl,rfl⟩
      · show update s.lastPacketProduced i (s.tail : ℤ) i=((s.produced%size : ℕ) : ℤ)
        rw [update_self,hmod]
        congr 1
        omega
      · show _ ∈ update s.own i _ i
        rw [update_self]
        exact mem_cons_self
    · cases hs
  | wrap =>
    obtain ⟨hta,-⟩ := hctd
    rw [producePacket] at hs
    split_ifs at hs with hfull
    · cases hs
    · cases hs
      refine ⟨?_,?_,rfl,rfl⟩
      · show update s.lastPacketProduced i (s.tail : ℤ) i=(s.produced : ℤ)
        rw [update_self,hta]
      · show _ ∈ update s.own i _ i
        rw [update_self]
        exact mem_cons_self

omit [DecidableEq ι] in
theorem Inv.sequence_lt (h : Inv size kind s) {m n : ℕ} (hn : kind = .wrap ∨ n < size)
    (hnm : n ≤ m) (hm : m < s.produced) (hread : sequence size m kind < s.head) : n < s.head := by
  have hctd := h.counted
  cases kind with
  | linear =>
    obtain ⟨b,⟨c,rfl⟩,hhe,hpro⟩ := hctd
    have hn : n < size := hn.resolve_left (by decide)
    have hmin : min s.tail size ≤ size := min_le_right _ _
    by_cases hsma : m < size
    · have hread : m%size < s.head := hread
      rw [mod_eq_of_lt hsma] at hread
      omega
    · have hc : c≠0 := by
        rintro rfl
        omega
      have hle : size ≤ size*c := Nat.le_mul_of_pos_right _ (pos_of_ne_zero hc)
      omega
  | wrap =>
    have hread : m < s.head := hread
    omega

end Invariant

section Runs

variable {size} {k : ℕ} {kind : FifoKind} {s0 s : SequencedFifo ι}

/-- Sequence numbers tell whether a packet is read, at every later moment, exactly in a `WrapFifo`
and for the packets of the first round of a `LinearFifo`. -/
theorem sequence_truthful_iff (hsi : size = 2^k)
    (h : Run (step size kind) (fun _ _ => True) (initial size) s0) {i : ι}
    (hs : producePacket size s0 i kind = (s, true)) :
    (∀ s', Run (step size kind) (fun _ _ => True) s s' →
      (s.lastPacketProduced i ≤ s'.lastPacketConsumed ↔ s0.produced ∈ s'.consumed) ∧
      (s'.activePackets i = false → s0.produced ∈ s'.consumed)) ↔
    kind = .wrap ∨ s0.produced < size := by
  have hpos : 0 < size := hsi ▸ Nat.two_pow_pos k
  have hinv0 := run_inv hsi (initial_inv hpos) h
  have hinv : Inv size kind s := by
    have hsp := inv_produce hsi hinv0 i
    rw [hs] at hsp
    exact hsp
  obtain ⟨hla,hown,hhe,hcns⟩ := produce_success hinv0 hs
  constructor
  · intro hall
    by_contra hnot
    obtain ⟨hkind,hrou⟩ := not_or.mp hnot
    have hnow := (hall s .refl).1
    rw [hcns,hinv0.consumed,mem_range,iff_false_right (not_lt.mpr hinv0.le),hla,lastPacketConsumed,hhe] at hnow
    cases kind with
    | linear =>
      obtain ⟨b,⟨c,rfl⟩,hb,hpro⟩ := hinv0.counted
      have hmod : s0.produced % size < size := mod_lt _ hpos
      have hta : s0.tail < size := by
        by_contra hge
        rw [producePacket,if_neg hge] at hs
        cases hs
      rw [min_eq_left hta.le] at hpro
      have hc : c≠0 := by
        rintro rfl
        omega
      have hle : size ≤ size * c := Nat.le_mul_of_pos_right _ (pos_of_ne_zero hc)
      apply hnow
      show ((s0.produced % size : ℕ) : ℤ) ≤ s0.head - 1
      omega
    | wrap => exact hkind rfl
  · intro hkind s' hrun
    have hinv' := run_inv hsi hinv hrun
    have hown' : s0.produced ∈ s'.own i := by
      apply hrun.invariant hown
      intro s a s' hmem _ hs
      exact own_step hmem hs
    have hmem : s0.produced ∈ s'.consumed ↔ s0.produced < s'.head := by rw [hinv'.consumed,mem_range]
    rw [hmem]
    constructor
    · rw [hla,lastPacketConsumed]
      have hseq : sequence size s0.produced kind=s0.produced := by
        cases kind with
        | linear => exact mod_eq_of_lt (hkind.resolve_left (by decide))
        | wrap => rfl
      rw [hseq]
      omega
    · intro hid
      obtain ⟨hlt,m,hm,hle,hla'⟩ := hinv'.own i _ hown'
      have hm' := (hinv'.own i m hm).1
      apply hinv'.sequence_lt hkind hle hm'
      rw [activePackets,decide_eq_false_iff_not,hla',lastPacketConsumed] at hid
      omega

theorem sequence_truthful_iff_wrap :
    let s1 := (producePacket 2 (initial 2 : SequencedFifo ℕ) 0 .wrap).1
    let s0 := consumePacket 2 (producePacket 2 s1 1 .wrap).1 .wrap
    let s := (producePacket 2 s0 0 .wrap).1
    ∀ s', Run (step 2 .wrap) (fun _ _ => True) s s' →
      (s.lastPacketProduced 0 ≤ s'.lastPacketConsumed ↔ 2 ∈ s'.consumed) ∧
      (s'.activePackets 0=false → 2 ∈ s'.consumed) := by
  intro s1 s0 s
  have hrun : Run (step 2 .wrap) (fun _ _ => True) (initial 2 : SequencedFifo ℕ) s0 :=
    Run.refl.execEvents [some 0,some 1,none] (fun _ _ _ => trivial) rfl
  have hsi : 2=2^1 := rfl
  have hs : producePacket 2 s0 0 .wrap=(s, true) := by
    show producePacket 2 s0 0 .wrap=((producePacket 2 s0 0 .wrap).1, true)
    rw [producePacket,if_neg (show ¬ s0.tail=s0.upper by decide)]
  have hnum : s0.produced=2 := by decide
  have htru := (sequence_truthful_iff hsi hrun hs).mpr (.inl rfl)
  rw [hnum] at htru
  exact htru

/-- The second packet of a `LinearFifo` with one slot. -/
theorem linear_untruthful :
    let s0 := (consumePacket 1 (producePacket 1 (initial 1 : SequencedFifo ℕ) 0 .linear).1 .linear)
    let s := (producePacket 1 s0 0 .linear).1
    Run (step 1 .linear) (fun _ _ => True) (initial 1) s0 ∧
      producePacket 1 s0 0 .linear=(s, true) ∧ s.lastPacketProduced 0 ≤ s.lastPacketConsumed ∧
      s.activePackets 0=false ∧ s0.produced ∉ s.consumed := by
  refine ⟨?_,rfl,by decide,by decide,by decide⟩
  exact (Run.refl.step (e := some 0) trivial rfl).step (e := none) trivial rfl

end Runs

end SequencedFifo

end PAMI.Fifo
