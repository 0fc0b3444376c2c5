import Mathlib.Data.Nat.ModEq
import Mathlib.Data.Nat.Size
import Mathlib.Data.Set.Basic
import PAMI.Math.PhasedData

namespace PAMI.Math

open Option Nat

variable {ι α μ : Type*}

/-- The first phases are the rounds of a dissemination: in each one every party sends twice as far along a
shift, and all of them together reach everybody. -/
structure Disseminates (T : PhaseTables ι) (rounds : ℕ) (shift : ℕ → ι → ι) : Prop where
  zero : ∀ a, shift 0 a = a
  add : ∀ i j a, shift (i + j) a = shift i (shift j a)
  dest : ∀ a n p, p < rounds → T.dest a n p = some (shift (2 ^ p) a)
  cover : ∀ a b, ∃ k < 2 ^ rounds, shift k a = b

namespace PhasedState

variable {T : PhaseTables ι} {s : PhasedState ι α μ} {a b r : ι} {n p k rounds : ℕ}
  {shift : ℕ → ι → ι}

theorem Passed.begun_first (h : s.Passed r n p) : s.Begun r n 0 := by
  obtain rfl | hp := Nat.eq_zero_or_pos p
  · exact .inl h
  · exact .inl (Begun.passed (.inl h) hp)

theorem Passed.earlier {q : ℕ} (h : s.Passed r n p) (hq : q≤p) : s.Passed r n q := by
  obtain rfl | hlt := eq_or_lt_of_le hq
  · exact h
  · exact Begun.passed (.inl h) hlt

theorem Timely.heard (h : Timely T s) (hT : Disseminates T rounds shift) (hp : p < rounds)
    (hpas : s.Passed b n p) (hk : k<2^(p+1)) (hab : shift k a = b) : s.Begun a n 0 := by
  induction p generalizing b k with
  | zero =>
    obtain rfl | rfl : k=0 ∨ k=1 := by omega
    · rw [hT.zero] at hab
      exact hab ▸ hpas.begun_first
    · have hds : T.dest a n 0 = some b := hab ▸ hT.dest a n 0 hp
      exact h.begun_source hpas ((T.matched a b n 0).mp hds)
  | succ p ih =>
    have hlt : p < rounds := lt_of_succ_lt hp
    by_cases hnear : k<2^(p+1)
    · exact ih hlt (hpas.earlier (le_succ p)) hnear hab
    · -- The party that sends in this round has passed the round before, and has heard from the others.
      have hspl : 2^(p+1)+(k-2^(p+1))=k := add_sub_of_le (not_lt.mp hnear)
      rw [← hspl,hT.add] at hab
      have hds : T.dest (shift (k-2^(p+1)) a) n (p+1) = some b := hab ▸ hT.dest _ n _ hp
      have hbeg := h.begun_source hpas ((T.matched _ b n _).mp hds)
      have hpow : 2^(p+1+1)=2^(p+1)+2^(p+1) := by rw [pow_succ,mul_two]
      exact ih hlt (hbeg.passed (lt_succ_self p)) (by omega) rfl

def Released (s : PhasedState ι α μ) (r : ι) (n rounds : ℕ) : Prop :=
  0 < n ∧ (n < s.exec r ∨ n = s.exec r ∧ rounds ≤ s.phase r)

theorem Timely.started (h : Timely T s) (hT : Disseminates T rounds shift) (hb : s.Released b n rounds)
    (a : ι) : n ≤ s.exec a := by
  obtain ⟨k,hk,hab⟩ := hT.cover a b
  cases rounds with
  | zero =>
    obtain rfl : k=0 := lt_one_iff.mp hk
    rw [hT.zero] at hab
    subst hab
    exact hb.2.elim le_of_lt fun hnow => hnow.1.le
  | succ p => exact (h.heard hT (lt_succ_self p) hb hk hab).le_exec

theorem Timely.exec_le (h : Timely T s) (hT : Disseminates T rounds shift) (a b : ι) :
    s.exec b ≤ s.exec a+1 := by
  obtain hle | hlt := lt_or_ge (s.exec b) 2
  · omega
  · have hrel : s.Released b (s.exec b-1) rounds := ⟨by omega,.inl (by omega)⟩
    have := h.started hT hrel a
    omega

end PhasedState

section Ring

variable {N : ℕ} {a b : Fin N} {k : ℕ}

/-- The place that is some steps further on a ring. -/
def forward (k : ℕ) (a : Fin N) : Fin N := ⟨(a + k) % N, mod_lt _ a.pos⟩

def backward (k : ℕ) (a : Fin N) : Fin N := ⟨(a + (N - 1) * k) % N, mod_lt _ a.pos⟩

theorem forward_eq_iff : forward k a = b ↔ (a+k : ℕ) ≡ b [MOD N] := by
  rw [Fin.ext_iff,Nat.ModEq,mod_eq_of_lt b.isLt]
  rfl

theorem backward_eq_iff : backward k a = b ↔ (b+k : ℕ) ≡ a [MOD N] := by
  have hpos : 1≤N := a.pos
  have hturn : (k+(N-1)*k : ℕ) ≡ 0 [MOD N] := by
    have hsum : k+(N-1)*k=N*k := by
      rw [Nat.sub_mul,one_mul,Nat.add_sub_cancel' (Nat.le_mul_of_pos_left k hpos)]
    rw [hsum]
    exact (modEq_zero_iff_dvd.mpr (Nat.dvd_mul_right N k))
  have hiff : backward k a=b ↔ (a+(N-1)*k : ℕ) ≡ b [MOD N] := by
    rw [Fin.ext_iff,Nat.ModEq,mod_eq_of_lt b.isLt]
    rfl
  rw [hiff]
  constructor
  · intro h
    calc (b+k : ℕ) ≡ a+(N-1)*k+k [MOD N] := h.symm.add_right k
      _ = a+(k+(N-1)*k) := by omega
      _ ≡ a+0 [MOD N] := hturn.add_left _
  · intro h
    calc (a+(N-1)*k : ℕ) ≡ b+k+(N-1)*k [MOD N] := h.symm.add_right _
      _ = b+(k+(N-1)*k) := by omega
      _ ≡ b+0 [MOD N] := hturn.add_left _

theorem forward_iff_backward : forward k a = b ↔ backward k b = a := by
  rw [forward_eq_iff,backward_eq_iff]

theorem forward_zero (a : Fin N) : forward 0 a = a := forward_eq_iff.mpr rfl

theorem forward_add (i j : ℕ) (a : Fin N) : forward (i+j) a = forward i (forward j a) := by
  refine forward_eq_iff.mpr (Nat.ModEq.symm ?_)
  calc ((forward i (forward j a) : Fin N) : ℕ) ≡ forward j a+i [MOD N] := (forward_eq_iff.mp rfl).symm
    _ ≡ a+j+i [MOD N] := (forward_eq_iff.mp rfl).symm.add_right i
    _ = a+(i+j) := by omega

theorem backward_zero (a : Fin N) : backward 0 a = a := backward_eq_iff.mpr rfl

theorem backward_add (i j : ℕ) (a : Fin N) : backward (i+j) a = backward i (backward j a) := by
  refine backward_eq_iff.mpr ?_
  calc ((backward i (backward j a) : Fin N)+(i+j) : ℕ)
      = backward i (backward j a)+i+j := by omega
    _ ≡ backward j a+j [MOD N] := (backward_eq_iff.mp rfl).add_right j
    _ ≡ a [MOD N] := backward_eq_iff.mp rfl

/-- How far forward a place is from another one. -/
def offset (a b : Fin N) : ℕ := (b + N - a) % N

theorem offset_lt (a b : Fin N) : offset a b < N := mod_lt _ a.pos

theorem forward_offset (a b : Fin N) : forward (offset a b) a = b := by
  refine forward_eq_iff.mpr ?_
  calc (a+(b+N-a)%N : ℕ) ≡ a+(b+N-a) [MOD N] := (mod_modEq _ N).add_left _
    _ = b+N := by omega
    _ ≡ b [MOD N] := add_modEq_right

theorem offset_forward (a : Fin N) (hk : k<N) : offset a (forward k a) = k := by
  have hmod : (a+offset a (forward k a) : ℕ) ≡ a+k [MOD N] :=
    (forward_eq_iff.mp (forward_offset a _)).trans (forward_eq_iff.mp rfl).symm
  exact Nat.ModEq.eq_of_lt_of_lt (Nat.ModEq.add_left_cancel' _ hmod) (offset_lt a _) hk

theorem offset_eq_iff (hk : k<N) : offset a b = k ↔ forward k a = b := by
  constructor
  · rintro rfl
    exact forward_offset a b
  · rintro rfl
    exact offset_forward a hk

theorem offset_eq_zero : offset a b = 0 ↔ b=a := by
  rw [offset_eq_iff a.pos,forward_zero,eq_comm]

theorem exists_forward (a b : Fin N) : ∃ k<N, forward k a = b := by
  exact ⟨offset a b,offset_lt a b,forward_offset a b⟩

theorem exists_backward (a b : Fin N) : ∃ k<N, backward k a = b := by
  obtain ⟨k,hk,hab⟩ := exists_forward b a
  exact ⟨k,hk,forward_iff_backward.mp hab⟩

/-- How often the distance doubles until it is as far as the ring. -/
def doublings (N : ℕ) : ℕ := (2 * N - 1).size - 1

theorem le_two_pow_doublings (N : ℕ) : N ≤ 2^doublings N := by
  obtain rfl | hpos := Nat.eq_zero_or_pos N
  · exact zero_le _
  · have hlt := lt_size_self (2*N-1)
    have hsi : 0<(2*N-1).size := size_pos.mpr (by omega)
    have hpow : 2^(2*N-1).size=2*2^doublings N := by
      rw [← Nat.pow_succ',doublings,succ_eq_add_one,Nat.sub_add_cancel hsi]
    omega

theorem two_pow_lt_of_lt_doublings {p : ℕ} (h : p < doublings N) : 2^p<N := by
  have hle : 2^(p+1)≤2*N-1 := lt_size.mp (by rw [doublings] at h; omega)
  have hpos : 0<2^p := Nat.two_pow_pos p
  rw [pow_succ] at hle
  omega

end Ring

variable {ι α μ κ : Type*}

/-- A protocol that spreads items after the rounds of a dissemination: what a party has initially in an execution, and
what the message of a party in a phase contains. -/
structure SpreadTables (ι κ : Type*) where
  tables : PhaseTables ι
  rounds : ℕ
  initial : ι → ℕ → Set κ
  content : ι → ℕ → ℕ → Set κ
  /-- Who sends something has it initially or has received it in an earlier phase. -/
  known : ∀ a b n p, 0 < n → rounds ≤ p → tables.dest a n p = some b → ∀ k ∈ content a n p,
    k ∈ initial a n ∨ ∃ c q, rounds ≤ q ∧ q < p ∧ tables.source a n q = some c ∧ k ∈ content c n q

/-- Parties that keep what they have. -/
structure Spreads (S : SpreadTables ι κ) (C : PhaseClient ι α μ) (M : ι → ℕ → ℕ → μ)
    (J : ι → ℕ → Set κ → α → Prop) : Prop where
  less : ∀ r n K K' x, K ⊆ K' → J r n K' x → J r n K x
  start : ∀ r n x, J r n ∅ x → J r (n + 1) (S.initial r (n + 1)) (C.start r (n + 1) x)
  signal : ∀ a n p x, p < S.rounds → C.payload a n p x = M a n p
  plain : ∀ b n p m x, p < S.rounds → C.deliver b n p m x = x
  transmit : ∀ a b n p x, 0 < n → S.rounds ≤ p → S.tables.dest a n p = some b → J a n (S.content a n p) x →
    C.payload a n p x = M a n p
  deliver : ∀ a b n p K x, 0 < n → S.rounds ≤ p → S.tables.dest a n p = some b → J b n K x →
    J b n (K ∪ S.content a n p) (C.deliver b n p (M a n p) x)
  postrcv : ∀ r n p x, C.postrcv r n p x = x

namespace SpreadTables

open PhasedState

variable (S : SpreadTables ι κ)

/-- What a party has in a phase of an execution, with the messages that have come in. -/
def Has (r : ι) (n p : ℕ) (D : ℕ → ℕ → Prop) : Set κ :=
  {k | 0 < n ∧ (k ∈ S.initial r n ∨ ∃ c q, S.rounds ≤ q ∧ S.tables.source r n q = some c ∧
    k ∈ S.content c n q ∧ (q < p ∨ D n q))}

variable {S} {s : PhasedState ι α μ} {a b r : ι} {n p : ℕ} {shift : ℕ → ι → ι}

theorem le_exec (ht : Timely S.tables s) (hS : Disseminates S.tables S.rounds shift) (hp : S.rounds≤p)
    (hbeg : s.Begun a n p) (b : ι) : n ≤ s.exec b := by
  refine ht.started (b := a) hS ?_ b
  obtain ⟨hpos,hlt | ⟨heq,hlt⟩⟩ | ⟨hpos,heq,hpha,-⟩ := hbeg
  · exact ⟨hpos,.inl hlt⟩
  · exact ⟨hpos,.inr ⟨heq,hp.trans hlt.le⟩⟩
  · exact ⟨hpos,.inr ⟨heq,hp.trans hpha.le⟩⟩

theorem begun_of_data (ht : Timely S.tables s) (hda : (s.message a n p).data.isSome) : s.Begun a n p :=
  ((ht.posted a n p).mp ((ht.ordered a n p).data hda)).2

theorem exec_of_held (ht : Timely S.tables s) (hS : Disseminates S.tables S.rounds shift)
    (h : s.Held S.tables (S.rounds ≤ ·) r n p) : n = s.exec r := by
  obtain ⟨hp,⟨a,-,hinc⟩,hpas⟩ := h
  have hbeg := begun_of_data ht ((ht.ordered a n p).incoming hinc)
  exact le_antisymm (le_exec ht hS hp hbeg r) (exec_le_of_not_passed hbeg.pos hpas)

end SpreadTables

namespace Spreads

open PhasedState SpreadTables

variable {S : SpreadTables ι κ} {C : PhaseClient ι α μ} {M : ι → ℕ → ℕ → μ} {J : ι → ℕ → Set κ → α → Prop}
  {s : PhasedState ι α μ} {a b r : ι} {n p : ℕ} {shift : ℕ → ι → ι}

theorem exec_pos (ht : Timely S.tables s) (hlt : s.phase r < S.tables.numphases r) : 0 < s.exec r := by
  apply Nat.pos_of_ne_zero
  intro hzr
  exact absurd (ht.first r hzr) hlt.ne

theorem carries (h : Spreads S C M J) (hS : Disseminates S.tables S.rounds shift) :
    Carries S.tables C (fun _ _ _ _ => True) (S.rounds ≤ ·) M fun r n p D x => J r n (S.Has r n p D) x where
  reset := by
    intro s r ho hend hr
    have hsta := h.start r (s.exec r) _ (h.less _ _ _ _ _ (Set.empty_subset _) hr)
    refine h.less _ _ _ _ _ ?_ hsta
    rintro k ⟨-,hk | ⟨c,q,-,-,-,hq | hhl⟩⟩
    · exact hk
    · exact absurd hq (Nat.not_lt_zero q)
    · exact absurd (exec_of_held ho.toTimely hS hhl) (Nat.succ_ne_self _)
  pass := by
    intro s r ho hlt hhl hr
    rw [h.postrcv]
    refine h.less _ _ _ _ _ ?_ hr
    rintro k ⟨hpos,hk | ⟨c,q,hrou,hc,hk,hq⟩⟩
    · exact ⟨hpos,.inl hk⟩
    · refine ⟨hpos,.inr ⟨c,q,hrou,hc,hk,?_⟩⟩
      obtain hq | hq := hq
      · obtain hlt | rfl := Nat.lt_succ_iff_lt_or_eq.mp hq
        · exact .inl hlt
        · exact .inr (hhl c hrou hc)
      · exact .inr hq.1
  transmit := by
    intro s a b ho hbeg hds _ hr
    have hpos := exec_pos ho.toTimely (ho.begun_lt a hbeg)
    obtain hsig | hrou := lt_or_ge (s.phase a) S.rounds
    · exact h.signal a _ _ _ hsig
    · refine h.transmit a b _ _ _ hpos hrou hds (h.less _ _ _ _ _ ?_ hr)
      intro k hk
      obtain hk | ⟨c,q,hq,hlt,hc,hk⟩ := S.known a b _ _ hpos hrou hds k hk
      · exact ⟨hpos,.inl hk⟩
      · exact ⟨hpos,.inr ⟨c,q,hq,hc,hk,.inl hlt⟩⟩
  incoming := by
    intro s a b n p ho _ hrou hds hda hpas _ hr
    have hbeg := begun_of_data ho.toTimely (isSome_of_eq_some hda)
    obtain rfl : n=s.exec b :=
      le_antisymm (le_exec ho.toTimely hS hrou hbeg b) (exec_le_of_not_passed hbeg.pos hpas)
    refine h.less _ _ _ _ _ ?_ (h.deliver a b _ _ _ _ hbeg.pos hrou hds hr)
    rintro k ⟨hpos,hk | ⟨c,q,hq,hc,hk,hlt | hhl | ⟨-,rfl⟩⟩⟩
    · exact .inl ⟨hpos,.inl hk⟩
    · exact .inl ⟨hpos,.inr ⟨c,q,hq,hc,hk,.inl hlt⟩⟩
    · exact .inl ⟨hpos,.inr ⟨c,q,hq,hc,hk,.inr hhl⟩⟩
    · have hsou := (S.tables.matched a b _ _).mp hds
      obtain rfl := some.inj (hc.symm.trans hsou)
      exact .inr hk
  plain := fun b n p m x hp => h.plain b n p m x (not_le.mp hp)

end Spreads

variable {N : ℕ} {κ : Type*}

/-- To whom a place sends in a phase: in the rounds of a dissemination, forward on the ring; then twice in each step, back
by a distance that doubles. -/
def ringDest (a : Fin N) (p : ℕ) : Option (Fin N) :=
  if p < doublings N then some (forward (2 ^ p) a)
  else if p < 3 * doublings N then some (backward (2 ^ ((p - doublings N) / 2)) a)
  else none

def ringSource (b : Fin N) (p : ℕ) : Option (Fin N) :=
  if p < doublings N then some (backward (2 ^ p) b)
  else if p < 3 * doublings N then some (forward (2 ^ ((p - doublings N) / 2)) b)
  else none

theorem lt_of_ringDest {a b : Fin N} {p : ℕ} (h : ringDest a p = some b) : p < 3*doublings N := by
  rw [ringDest] at h
  split at h
  case isTrue => omega
  case isFalse => exact (ite_none_right_eq_some.mp h).1

theorem forward_of_ringDest {a b : Fin N} {p : ℕ} (hp : doublings N ≤ p) (h : ringDest a p = some b) :
    forward (2^((p-doublings N)/2)) b = a := by
  have hlt := lt_of_ringDest h
  rw [ringDest,if_neg (not_lt.mpr hp),if_pos hlt,some_inj] at h
  exact forward_iff_backward.mpr h

theorem exists_step {p : ℕ} (hp : doublings N ≤ p) (hlt : p < 3*doublings N) :
    ∃ i < doublings N, (p-doublings N)/2=i ∧ (p = doublings N+2*i ∨ p = doublings N+2*i+1) :=
  ⟨(p-doublings N)/2,by omega,rfl,by omega⟩

/-- Each place has a block; the two messages of a step have together the blocks of as many places, from the sender
on. -/
structure RingContent (N : ℕ) (κ : Type*) where
  block : Fin N → ℕ → Set κ
  content : Fin N → ℕ → ℕ → Set κ
  halves : ∀ a n i, 0 < n → i < doublings N → ∀ k,
    (k ∈ content a n (doublings N + 2 * i) ∨ k ∈ content a n (doublings N + 2 * i + 1)) ↔
      ∃ d < 2 ^ i, k ∈ block (forward d a) n

namespace RingContent

variable {R : RingContent N κ} {a : Fin N} {n i d : ℕ} {k : κ}

theorem received (hn : 0<n) (hi : i ≤ doublings N) (hd : d<2^i) (hk : k ∈ R.block (forward d a) n) :
    k ∈ R.block a n ∨ ∃ c q, doublings N ≤ q ∧ q < doublings N+2*i ∧ ringSource a q = some c ∧
      k ∈ R.content c n q := by
  obtain rfl | hpos := Nat.eq_zero_or_pos d
  · rw [forward_zero] at hk
    exact .inl hk
  · have hsp : 2^Nat.log2 d≤d := log2_self_le hpos.ne'
    have hlt : Nat.log2 d < i := (log2_lt hpos.ne').mpr hd
    have hfar : d-2^Nat.log2 d < 2^Nat.log2 d := by
      have hnx : d<2^(Nat.log2 d+1) := lt_log2_self
      rw [pow_succ] at hnx
      omega
    have hspl : d-2^Nat.log2 d+2^Nat.log2 d=d := Nat.sub_add_cancel hsp
    rw [← hspl,forward_add] at hk
    have hsou : ∀ q, (q-doublings N)/2=Nat.log2 d → doublings N≤q → q<3*doublings N →
        ringSource a q = some (forward (2^Nat.log2 d) a) := by
      intro q hq hle hend
      rw [ringSource,if_neg (not_lt.mpr hle),if_pos hend,hq]
    obtain hhalf | hhalf := (R.halves _ n _ hn (hlt.trans_le hi) k).mpr ⟨_,hfar,hk⟩
    · exact .inr ⟨_,_,by omega,by omega,hsou _ (by omega) (by omega) (by omega),hhalf⟩
    · exact .inr ⟨_,_,by omega,by omega,hsou _ (by omega) (by omega) (by omega),hhalf⟩

end RingContent

end PAMI.Math
