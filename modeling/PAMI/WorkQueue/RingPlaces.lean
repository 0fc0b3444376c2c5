import PAMI.WorkQueue.WQRingReduce

namespace PAMI.WorkQueue.RingReduce

open PAMI.Math List

variable {β : Type*} {size root i d : ℕ}

section Places

/-- How far downstream from the head a rank is, and which rank is so far downstream. -/
def place (size root i : ℕ) : ℕ := if i < root then root - 1 - i else root + size - 1 - i

theorem place_lt (hrt : root < size) (hi : i < size) : place size root i < size := by
  rw [place]
  split <;> omega

theorem place_place (hrt : root < size) (hi : i < size) : place size root (place size root i) = i := by
  rw [place,place]
  split <;> split <;> omega

theorem places_perm (hrt : root < size) : ((List.range size).map (place size root)).Perm (List.range size) := by
  rw [perm_ext_iff_of_nodup _ nodup_range]
  · intro i
    rw [mem_map,mem_range]
    constructor
    · rintro ⟨d,hd,rfl⟩
      exact place_lt hrt (mem_range.mp hd)
    · intro hi
      exact ⟨place size root i,mem_range.mpr (place_lt hrt hi),place_place hrt hi⟩
  · apply List.Nodup.map_on _ nodup_range
    intro a ha b hb heq
    rw [← place_place hrt (mem_range.mp ha),heq,place_place hrt (mem_range.mp hb)]

theorem place_root (hrt : root < size) : place size root root = size-1 := by
  rw [place,if_neg (lt_irrefl root)]
  omega

theorem next_lt (hi : i < size) : next size i < size := by
  rw [next]
  split <;> omega

theorem next_ne (hsi : 2 ≤ size) (hi : i < size) : next size i ≠ i := by
  rw [next]
  split <;> omega

theorem next_inj {i' : ℕ} (hi : i < size) (hi' : i' < size) (h : next size i = next size i') : i=i' := by
  rw [next,next] at h
  split at h <;> split at h <;> omega

theorem exists_prev (hi : i < size) : ∃ p < size, next size p = i := by
  cases i with
  | zero =>
    refine ⟨size-1,by omega,?_⟩
    rw [next,if_pos (by omega)]
    omega
  | succ i =>
    refine ⟨i,by omega,?_⟩
    rw [next,if_neg (by omega)]

theorem place_head (hrt : root < size) (hi : i < size) (h : next size i = root) : place size root i = 0 := by
  rw [next] at h
  rw [place]
  split at h <;> split <;> omega

theorem place_next (hrt : root < size) (hi : i < size) (h : next size i ≠ root) :
    place size root i = place size root (next size i)+1 := by
  rw [next] at h ⊢
  rw [place,place]
  split at h <;> split <;> split <;> omega

theorem role_root : role size root i = .root ↔ root=i := by
  rw [role]
  split
  case isTrue h => exact ⟨fun _ => h.symm,fun _ => rfl⟩
  case isFalse h =>
    constructor
    · intro hrole
      split at hrole <;> contradiction
    · intro heq
      exact absurd heq.symm h

theorem role_head (hsi : 2 ≤ size) (hi : i < size) : role size root i = .head ↔ root = next size i := by
  have hne := next_ne hsi hi
  rw [role]
  split
  case isTrue h =>
    constructor
    · intro hrole
      contradiction
    · intro heq
      exact absurd (h.trans heq) hne.symm
  case isFalse h =>
    split
    case isTrue hnx => exact ⟨fun _ => hnx.symm,fun _ => rfl⟩
    case isFalse hnx =>
      constructor
      · intro hrole
        contradiction
      · intro heq
        exact absurd heq.symm hnx

end Places

section Combination

variable (C : RingCalls β) (j : ℕ)

/-- What the rank at a place passes on: its input, combined with what comes from upstream. -/
def combination : ℕ → List β
  | 0 => (C.call j).input (place C.size (C.call j).root 0)
  | d + 1 => blockwise (2 ^ (C.call j).shift) (C.call j).func (C.call j).count
      ((C.call j).input (place C.size (C.call j).root (d + 1))) (combination d)

def passed (i : ℕ) : List β := combination C j (place C.size (C.call j).root i)

theorem length_combination (hd : d<C.size) : (combination C j d).length=(C.call j).bytes := by
  induction d with
  | zero => exact C.input_length j _ (place_lt (C.root_lt j) hd)
  | succ d ih =>
    have hinp := C.input_length j _ (place_lt (C.root_lt j) hd)
    have hrs := ih (by omega)
    exact length_blockwise (C.keepsBlocks j) hinp.ge hrs.ge

theorem length_passed (hi : i<C.size) : (passed C j i).length=(C.call j).bytes :=
  length_combination C j (place_lt (C.root_lt j) hi)

theorem passed_head (hi : i<C.size) (h : next C.size i = (C.call j).root) : passed C j i = (C.call j).input i := by
  have hpla := place_head (C.root_lt j) hi h
  rw [passed,hpla,combination]
  congr 1
  rw [← hpla,place_place (C.root_lt j) hi]

theorem passed_next (hi : i<C.size) (h : next C.size i ≠ (C.call j).root) : passed C j i =
    blockwise (2^(C.call j).shift) (C.call j).func (C.call j).count ((C.call j).input i) (passed C j (next C.size i)) := by
  have hpla := place_next (C.root_lt j) hi h
  rw [passed,hpla,combination,← hpla,place_place (C.root_lt j) hi,passed]

end Combination

section Positions

variable (C : RingCalls β) {q j x : ℕ}

/-- The bytes that go through the queue of a rank in the first reduces. -/
@[grind =] def before (q : ℕ) : ℕ → ℕ
  | 0 => 0
  | j + 1 => before q j + if (C.call j).root = q then 0 else (C.call j).bytes

def position (q j x : ℕ) : ℕ := before C q j + if (C.call j).root = q then 0 else x

theorem position_zero : position C q j 0 = before C q j := by
  rw [position,ite_self,add_zero]

theorem position_bytes : position C q j (C.call j).bytes = before C q (j+1) := rfl

theorem before_mono {j' : ℕ} (h : j≤j') : before C q j ≤ before C q j' := by
  induction j', h using Nat.le_induction with
  | base => exact le_refl _
  | succ j' _ ih => exact ih.trans (Nat.le_add_right _ _)

theorem position_lt {j' : ℕ} (h : j<j') (hx : x<(C.call j).bytes) (hq : (C.call j).root≠q) (x' : ℕ) :
    position C q j x < position C q j' x' := by
  have hmono : before C q (j+1) ≤ before C q j' := before_mono C h
  rw [before,if_neg hq] at hmono
  rw [position,position,if_neg hq]
  omega

theorem position_inj {j' x' : ℕ} (hx : x<(C.call j).bytes) (hx' : x'<(C.call j').bytes) (hq : (C.call j).root≠q)
    (hq' : (C.call j').root≠q) (h : position C q j x = position C q j' x') : j=j' ∧ x=x' := by
  obtain hlt | rfl | hgt := lt_trichotomy j j'
  · exact absurd h (position_lt C hlt hx hq x').ne
  · rw [position,position,if_neg hq,if_neg hq] at h
    exact ⟨rfl,Nat.add_left_cancel h⟩
  · exact absurd h (position_lt C hgt hx' hq' x).ne'

end Positions

end PAMI.WorkQueue.RingReduce
