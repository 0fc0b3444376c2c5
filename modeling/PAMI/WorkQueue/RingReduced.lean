import Mathlib.Algebra.BigOperators.Group.Finset.Piecewise
import Mathlib.Data.Finset.Max
import Mathlib.Data.Prod.Lex
import PAMI.WorkQueue.RingReduceRuns

namespace PAMI.WorkQueue.RingReduce

open PAMI.Math List Nat Finset

variable {β : Type*} {C : RingCalls β} {s s' : RingReduce β} {i : ℕ}

section Elements

variable (C : RingCalls β) (j : ℕ)

def element (size e : ℕ) (l : List β) : List β := (l.drop (e * size)).take size

/-- An element of the inputs, combined along the ring from the head on; each rank has a place. -/
def combinedElement (e : ℕ) : ℕ → List β
  | 0 => element (2 ^ (C.call j).shift) e ((C.call j).input (place C.size (C.call j).root 0))
  | d + 1 => (C.call j).func
      (element (2 ^ (C.call j).shift) e ((C.call j).input (place C.size (C.call j).root (d + 1)))) (combinedElement e d)

theorem element_combination {d e : ℕ} (hd : d<C.size) (he : e<(C.call j).count) :
    element (2^(C.call j).shift) e (combination C j d) = combinedElement C j e d := by
  induction d with
  | zero => rfl
  | succ d ih =>
    have hinp := C.input_length j _ (place_lt (C.root_lt j) hd)
    have hrs := length_combination C j (d := d) (by omega)
    have hpart := blockwise_part (a := e) (b := 1) (n := (C.call j).count) (C.keepsBlocks j) hinp hrs he
    rw [one_mul] at hpart
    have hone : ∀ x y : List β, blockwise (2^(C.call j).shift) (C.call j).func 1 x y =
        (C.call j).func (x.take (2^(C.call j).shift)) (y.take (2^(C.call j).shift)) := by
      intro x y
      rw [blockwise,blockwise,append_nil]
    rw [hone,take_take,take_take,min_self] at hpart
    rw [combinedElement,← ih (by omega),combination]
    exact hpart.symm

end Elements

section Progress

theorem exists_hindmost (s : RingReduce β) (hsi : 0<C.size) : ∃ i<C.size, ∀ k<C.size,
    s.done i < s.done k ∨ s.done i = s.done k ∧
      (s.iconsumed i (s.done i) < s.iconsumed k (s.done i) ∨ s.iconsumed i (s.done i) = s.iconsumed k (s.done i) ∧
        place C.size (C.call (s.done i)).root i ≤ place C.size (C.call (s.done i)).root k) := by
  obtain ⟨i,hi,hmin⟩ := (Finset.range C.size).exists_min_image
    (fun i => toLex (s.done i, toLex (s.iconsumed i (s.done i), place C.size (C.call (s.done i)).root i)))
    ⟨0,Finset.mem_range.mpr hsi⟩
  refine ⟨i,Finset.mem_range.mp hi,?_⟩
  intro k hk
  have hle := hmin k (Finset.mem_range.mpr hk)
  rw [Prod.Lex.toLex_le_toLex] at hle
  cases hle with
  | inl hlt => exact Or.inl hlt
  | inr hdn =>
    obtain ⟨heq,hle⟩ := hdn
    dsimp only at heq hle
    rw [Prod.Lex.toLex_le_toLex] at hle
    dsimp only at hle
    rw [← heq] at hle
    exact Or.inr ⟨heq,hle⟩

variable (h : Inv C s)

include h in
theorem room_of_behind {p : ℕ} (hp : p<C.size) (hnx : next C.size p = i) (hact : s.done i < s.posted i)
    (hrt : (C.call (s.done i)).root≠i)
    (hbeh : s.done p = s.done i → s.iconsumed i (s.done i) ≤ s.iconsumed p (s.done i))
    (hdn : s.done i ≤ s.done p) : 0 < s.bytesAvailableToProduce C i := by
  have heq : s.done p = s.done i := le_antisymm (h.done_le hp hnx hact hrt) hdn
  have hle : s.out C i ≤ s.into C p := by
    rw [out,into,hnx,heq,position,position,if_neg hrt,if_neg hrt]
    exact Nat.add_le_add_left (hbeh heq) _
  have hlt : s.out C i%2^13<2^13 := mod_lt _ (Nat.two_pow_pos 13)
  rw [h.bytesAvailableToProduce hp hnx hrt]
  omega

include h in
theorem bytes_of_behind (hi : i<C.size) (hact : s.done i < s.posted i)
    (hrt : (C.call (s.done i)).root ≠ next C.size i)
    (hbeh : s.done i < s.done (next C.size i) ∨ s.done i = s.done (next C.size i) ∧
      s.iconsumed i (s.done i) < s.iconsumed (next C.size i) (s.done i)) : 0 < s.bytesAvailableToConsume C i := by
  obtain ⟨hpos,hlf⟩ := h.left i hi hact
  have hlt : s.into C i < s.out C (next C.size i) := by
    cases hbeh with
    | inl hdn => exact position_lt C hdn (by omega) hrt _
    | inr hsm =>
      rw [into,out,← hsm.1,position,position,if_neg hrt,if_neg hrt]
      exact Nat.add_lt_add_left hsm.2 _
  have hmod : s.into C i%2^13<2^13 := mod_lt _ (Nat.two_pow_pos 13)
  rw [h.bytesAvailableToConsume hi]
  omega

include h in
theorem exists_amount_pos (hC : Regular C) {J : ℕ} (hpst : ∀ i<C.size, J ≤ s.posted i)
    (hinp : ∀ i<C.size, ∀ j<J, s.iproduced i j = (C.call j).bytes) (hbusy : ∃ i<C.size, s.done i < J) :
    ∃ i<C.size, s.done i < J ∧ 0 < s.amount C i := by
  obtain ⟨k,hk,hkJ⟩ := hbusy
  have hsi := hC.two_le
  obtain ⟨i,hi,hmin⟩ := exists_hindmost (C := C) s (by omega)
  have hiJ : s.done i<J := by
    have hle := hmin k hk
    omega
  have hact : s.done i < s.posted i := lt_of_lt_of_le hiJ (hpst i hi)
  obtain ⟨hlf,hbyt⟩ := h.left i hi hact
  have hofr : 0 < s.iproduced i (s.done i)-s.iconsumed i (s.done i) := by
    rw [hinp i hi _ hiJ]
    omega
  have hrm : 0 < s.bytesAvailableToProduce C i := by
    by_cases hrt : (C.call (s.done i)).root=i
    · rw [bytesAvailableToProduce,if_pos (role_root.mpr hrt),h.results,hrt]
      omega
    · obtain ⟨p,hp,hnx⟩ := exists_prev hi
      have hle := hmin p hp
      exact room_of_behind h hp hnx hact hrt (by omega) (by omega)
  refine ⟨i,hi,hiJ,?_⟩
  rw [amount]
  split
  case isTrue => omega
  case isFalse hrole =>
    rw [role_head hsi hi] at hrole
    have hle := hmin _ (next_lt hi)
    -- the next rank is upstream, so that it is ahead
    have hpla := place_next (C.root_lt (s.done i)) hi (Ne.symm hrole)
    have hups := bytes_of_behind h hi hact hrole (by omega)
    omega

/-- The bytes that the ranks have still to consume of the first reduces. -/
def remaining (C : RingCalls β) (J : ℕ) (s : RingReduce β) : ℕ :=
  ∑ i ∈ Finset.range C.size, ∑ j ∈ Finset.range J, ((C.call j).bytes - s.iconsumed i j)

include h in
theorem remaining_advance (hC : Regular C) (hi : i<C.size) (hact : s.done i < s.posted i) {J : ℕ} (hJ : s.done i < J) :
    remaining C J (s.__advanceThread C i)+s.amount C i = remaining C J s := by
  rw [__advanceThread]
  split
  case isTrue hzr => rw [hzr,add_zero]
  case isFalse =>
    have ha := advanced (s := s) hC.two_le hi (s.amount C i) (s.data C i)
    obtain ⟨hpos,hlf⟩ := h.left i hi hact
    have hamo : s.amount C i ≤ s.bytesLeft i := Inv.amount_le_left
    generalize consumeInput C _ i (s.amount C i)=s' at ha ⊢
    have hone : ∀ k ∈ Finset.range C.size, ∀ j ∈ Finset.range J, (C.call j).bytes-s.iconsumed k j =
        ((C.call j).bytes-s'.iconsumed k j)+if k=i then if j=s.done i then s.amount C i else 0 else 0 := by
      intro k _ j _
      rw [ha.iconsumed_eq]
      split
      case isTrue heq =>
        obtain ⟨rfl,rfl⟩ := heq
        rw [if_pos rfl,if_pos rfl]
        omega
      case isFalse hne =>
        split
        case isTrue heq => rw [if_neg fun hj => hne ⟨heq,hj⟩,add_zero,add_zero]
        case isFalse => rfl
    have hsum : ∑ k ∈ Finset.range C.size, ∑ j ∈ Finset.range J,
        (if k=i then if j=s.done i then s.amount C i else 0 else 0)=s.amount C i := by
      rw [sum_eq_single_of_mem i (Finset.mem_range.mpr hi)]
      · rw [sum_eq_single_of_mem (s.done i) (Finset.mem_range.mpr hJ)]
        · rw [if_pos rfl,if_pos rfl]
        · intro j _ hj
          rw [if_pos rfl,if_neg hj]
      · intro k _ hk
        apply Finset.sum_eq_zero
        intro j _
        rw [if_neg hk]
    rw [remaining,remaining]
    conv_rhs => rw [sum_congr rfl fun k hk => sum_congr rfl (hone k hk)]
    simp only [sum_add_distrib]
    rw [hsum]

end Progress

/-- What the ranks have done: a reduce is finished with all its bytes, the root has combined each element of the ranks'
inputs, the queues are empty in between, and as long as a reduce is not finished a rank can move bytes of what remains. -/
structure Reduced (C : RingCalls β) (s : RingReduce β) : Prop where
  bounded : ∀ j, s.rproduced j ≤ (C.call j).bytes ∧ ∀ i < C.size, s.iconsumed i j ≤ (C.call j).bytes
  consumed : ∀ i < C.size, ∀ j < s.done i, s.iconsumed i j = (C.call j).bytes
  output : ∀ j < s.done (C.call j).root, s.rproduced j = (C.call j).bytes ∧ ∀ e < (C.call j).count,
    element (2 ^ (C.call j).shift) e ((List.range (C.call j).bytes).map (s.output j)) =
      combinedElement C j e (C.size - 1)
  places : ∀ j, ((List.range C.size).map (place C.size (C.call j).root)).Perm (List.range C.size)
  empty : ∀ J, (∀ i < C.size, s.posted i = J ∧ s.done i = J) →
    ∀ i < C.size, (s.wq i).producedBytes = (s.wq i).consumedBytes
  progress : ∀ J, (∀ i < C.size, J ≤ s.posted i) → (∀ i < C.size, ∀ j < J, s.iproduced i j = (C.call j).bytes) →
    (∃ i < C.size, s.done i < J) → ∃ i < C.size, s.done i < J ∧ 0 < s.amount C i
  remaining : ∀ i < C.size, ∀ J, s.done i < J → J ≤ s.posted i →
    remaining C J (s.__advanceThread C i) + s.amount C i = remaining C J s

namespace Inv

variable (h : Inv C s)

include h in
theorem output_eq {j : ℕ} (hj : j < s.done (C.call j).root) :
    (List.range (C.call j).bytes).map (s.output j) = combination C j (C.size-1) := by
  have hrt := C.root_lt j
  have hlng := length_passed C j hrt
  have hpro : s.rproduced j=(C.call j).bytes := (h.results j).trans (h.finished _ hrt j hj)
  have hpas : combination C j (C.size-1) = passed C j (C.call j).root := by rw [passed,place_root hrt]
  rw [hpas]
  apply ext_getElem
  · rw [length_map,length_range,hlng]
  · intro x hx hx'
    rw [getElem_map,getElem_range]
    apply h.output j x
    · rw [hpro,← hlng]
      exact hx'
    · exact List.getElem?_eq_getElem hx'

include h in
theorem empty {J : ℕ} (hdn : ∀ i<C.size, s.posted i = J ∧ s.done i = J) (hi : i<C.size) :
    (s.wq i).producedBytes=(s.wq i).consumedBytes := by
  obtain ⟨p,hp,hnx⟩ := exists_prev hi
  have hpon : ∀ k<C.size, ∀ q, position C q (s.done k) (s.iconsumed k (s.done k)) = before C q J := by
    intro k hk q
    obtain ⟨hpst,heq⟩ := hdn k hk
    rw [heq,h.fresh k J (Or.inr hpst.le),position_zero]
  have hpro := h.produced i hi
  have hcns := h.consumed p hp
  rw [hnx] at hcns
  rw [hpro,hcns,out,into,hpon i hi,hpon p hp,hnx]

include h in
theorem reduced (hC : Regular C) : Reduced C s where
  bounded j := by
    have hle : ∀ i, s.iconsumed i j≤(C.call j).bytes := fun i => (h.consumed_le i j).trans (h.produced_le i j)
    exact ⟨(h.results j).trans_le (hle _),fun i _ => hle i⟩
  consumed := h.finished
  output j hj := by
    have hsi := hC.two_le
    refine ⟨(h.results j).trans (h.finished _ (C.root_lt j) j hj),?_⟩
    intro e he
    rw [h.output_eq hj]
    exact element_combination C j (by omega) he
  places j := places_perm (C.root_lt j)
  empty _ hdn _ hi := h.empty hdn hi
  progress _ hpst hinp hbusy := exists_amount_pos h hC hpst hinp hbusy
  remaining _ hi _ hJ hpst := remaining_advance h hC hi (lt_of_lt_of_le hJ hpst) hJ

end Inv

/-- Whatever the order in which the ranks post, advance and produce their inputs, they reduce them. -/
theorem run_reduced (hC : Regular C) {buffer output : ℕ → ℕ → β}
    (hrun : Run (step C) (WholeOffers C) (start buffer output) s) : Reduced C s :=
  (run_inv hC hrun).reduced hC

instance (C : RingCalls β) (s : RingReduce β) (e : Event) : Decidable (WholeOffers C s e) :=
  match e with
  | .advance i => inferInstanceAs (Decidable ((C.call (s.done i)).root ≠ next C.size i →
    ∀ a ∈ s.offers C i, (∀ b ∈ s.offers C i, a ≤ b) → 2 ^ (C.call (s.done i)).shift ∣ a))
  | .postMulticombine _ => isTrue trivial
  | .produceInput _ _ _ => isTrue trivial

/-- Sums of elements of two bytes, with the two ranks as roots in turn. -/
def pair : RingCalls ℕ where
  size := 2
  call j := ⟨j % 2, 2, 1, List.zipWith (· + ·), fun i => if i = 0 then [1, 2, 3, 4] else [10, 20, 30, 40]⟩
  root_lt j := mod_lt j two_pos
  shift_le _ := Nat.le_add_left 1 4
  input_length j i _ := by
    dsimp only
    split <;> rfl
  keepsBlocks _ x y hx hy := by
    rw [length_zipWith, hx, hy, min_self]

theorem run_reduced_pair : ∃ s : RingReduce ℕ, Run (step pair) (WholeOffers pair) (start (fun _ _ => 0) fun _ _ => 0) s ∧
    s.done 0 = 2 ∧ s.done 1 = 2 ∧ (List.range 4).map (s.output 1) = [11, 22, 33, 44] ∧ Reduced pair s := by
  have hend : (execEvents (fun s e => if WholeOffers pair s e then step pair s e else none)
      [.postMulticombine 0,.postMulticombine 1,.postMulticombine 1,.postMulticombine 0,.produceInput 1 0 2,.advance 1,
        .produceInput 0 0 4,.advance 0,.produceInput 1 0 2,.advance 1,.advance 0,.produceInput 0 1 4,.advance 0,
        .produceInput 1 1 4,.advance 1] (start (fun _ _ => 0) fun _ _ => 0)).map
      (fun s => (s.done 0, s.done 1, (List.range 4).map (s.output 1))) = some (2, 2, [11,22,33,44]) := by
    decide
  obtain ⟨s,hs,hval⟩ := Option.map_eq_some_iff.mp hend
  obtain ⟨hdn,hrs⟩ := Prod.mk.inj hval
  obtain ⟨hdn',hout⟩ := Prod.mk.inj hrs
  have hrun : Run (step pair) (WholeOffers pair) (start (fun _ _ => 0) fun _ _ => 0) s := Run.checked .refl _ hs
  exact ⟨s,hrun,hdn,hdn',hout,run_reduced ⟨le_refl 2,fun _ => two_pos⟩ hrun⟩

/-- Reduces of bytes by the first so many ranks, with the first of them as the root. -/
def bytesReduce (size count : ℕ) (hsi : 0 < size) : RingCalls ℕ where
  size := size
  call _ := ⟨0, count, 0, List.zipWith (· + ·), fun _ => List.replicate count 1⟩
  root_lt _ := hsi
  shift_le _ := zero_le 5
  input_length _ _ _ := length_replicate.trans (mul_one count).symm
  keepsBlocks _ x y hx hy := by
    rw [length_zipWith, hx, hy, min_self]

theorem not_reduced_of_waiting (hwtn : ∀ i ∈ List.range C.size, s.posted i = 1 ∧ s.done i = 0 ∧
    s.amount C i = 0 ∧ s.iproduced i 0 = (C.call 0).bytes) (hsi : 0<C.size) : ¬ Reduced C s := by
  intro h
  have hwai := fun i (hi : i<C.size) => hwtn i (List.mem_range.mpr hi)
  have hins : ∀ i<C.size, ∀ j<1, s.iproduced i j=(C.call j).bytes := by
    intro i hi j hj
    obtain rfl := lt_one_iff.mp hj
    exact (hwai i hi).2.2.2
  have hbusy : s.done 0<1 := by
    rw [(hwai 0 hsi).2.1]
    exact one_pos
  obtain ⟨i,hi,-,hpos⟩ := h.progress 1 (fun i hi => (hwai i hi).1.ge) hins ⟨0,hsi,hbusy⟩
  exact absurd (hwai i hi).2.2.1 hpos.ne'

theorem exists_run_of_exec {D : RingCalls ℕ} {P : RingReduce ℕ → Prop} [DecidablePred P] (es : List Event)
    (h : (execEvents (step D) es (start (fun _ _ => 0) fun _ _ => 0)).map (fun s => decide (P s)) = some true) :
    ∃ s, Run (step D) (fun _ _ => True) (start (fun _ _ => 0) fun _ _ => 0) s ∧ P s := by
  obtain ⟨s,hs,hP⟩ := Option.map_eq_some_iff.mp h
  exact ⟨s,Run.execEvents .refl _ (fun _ _ _ => trivial) hs,of_decide_eq_true hP⟩

/-- An element whose bytes arrive one after the other is not combined, a single rank waits for its own queue, and an empty
reduce is not finished. -/
theorem not_reduced :
    (∃ s, Run (step pair) (fun _ _ => True) (start (fun _ _ => 0) fun _ _ => 0) s ∧ ¬ Reduced pair s) ∧
    (∃ s, Run (step (bytesReduce 1 1 one_pos)) (fun _ _ => True) (start (fun _ _ => 0) fun _ _ => 0) s ∧
      ¬ Reduced (bytesReduce 1 1 one_pos) s) ∧
    ∃ s, Run (step (bytesReduce 2 0 two_pos)) (fun _ _ => True) (start (fun _ _ => 0) fun _ _ => 0) s ∧
      ¬ Reduced (bytesReduce 2 0 two_pos) s := by
  refine ⟨?_,?_,?_⟩
  · have hrun := exists_run_of_exec (D := pair)
      (P := fun s => s.done 0=1 ∧ (List.range 4).map (s.output 0) = [0,22,33,0])
      [.postMulticombine 0,.postMulticombine 1,.produceInput 1 0 4,.advance 1,.produceInput 0 0 1,.advance 0,
        .produceInput 0 0 3,.advance 0] (by decide)
    obtain ⟨s,hs,hdn,hout⟩ := hrun
    refine ⟨s,hs,?_⟩
    intro h
    have hfir := (h.output 0 (hdn ▸ one_pos)).2 0 (by decide)
    rw [show (List.range (pair.call 0).bytes).map (s.output 0) = [0,22,33,0] from hout] at hfir
    exact absurd hfir (by decide)
  · obtain ⟨s,hs,hwtn⟩ := exists_run_of_exec (D := bytesReduce 1 1 one_pos)
      (P := fun s => ∀ i ∈ List.range 1, s.posted i=1 ∧ s.done i=0 ∧
        s.amount (bytesReduce 1 1 one_pos) i=0 ∧ s.iproduced i 0=1)
      [.postMulticombine 0,.produceInput 0 0 1] (by decide)
    exact ⟨s,hs,not_reduced_of_waiting hwtn one_pos⟩
  · obtain ⟨s,hs,hwtn⟩ := exists_run_of_exec (D := bytesReduce 2 0 two_pos)
      (P := fun s => ∀ i ∈ List.range 2, s.posted i=1 ∧ s.done i=0 ∧
        s.amount (bytesReduce 2 0 two_pos) i=0 ∧ s.iproduced i 0=0)
      [.postMulticombine 0,.postMulticombine 1] (by decide)
    exact ⟨s,hs,not_reduced_of_waiting hwtn two_pos⟩

end PAMI.WorkQueue.RingReduce
