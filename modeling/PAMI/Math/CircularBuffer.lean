import Mathlib.Data.List.Basic
import Mathlib.Tactic.Linarith

namespace PAMI.Math

open List Nat

section CircularBuffer

variable {β : Type*}

/-- A buffer with the elements of a list stored from an index on. -/
def store (f : ℕ → β) (off : ℕ) (l : List β) : ℕ → β := fun i =>
  if off ≤ i then l[i - off]?.getD (f i) else f i

theorem store_of_lt {f : ℕ → β} {off i : ℕ} {l : List β} {x : β} (h : l[i]? = some x) :
    store f off l (off+i) = x := by
  rw [store,if_pos (Nat.le_add_right _ _),Nat.add_sub_cancel_left,h,Option.getD_some]

theorem store_of_out {f : ℕ → β} {off i : ℕ} {l : List β} (h : i<off ∨ off+l.length ≤ i) :
    store f off l i = f i := by
  rw [store]
  split_ifs with hle
  · have hlen : l.length ≤ i-off := by omega
    rw [List.getElem?_eq_none hlen,Option.getD_none]
  · rfl

theorem mod_ne_mod {q i j : ℕ} (h : i<j) (hj : j < i+q) : i%q≠j%q := by
  intro heq
  have hdvd : q ∣ j-i := dvd_of_mod_eq_zero (sub_mod_eq_zero_of_mod_eq heq.symm)
  exact absurd (le_of_dvd (by omega) hdvd) (by omega)

theorem mod_add_of_lt {q p i : ℕ} (h : p%q+i<q) : (p+i)%q=p%q+i := by
  rw [add_mod,mod_eq_of_lt (show i<q by omega),mod_eq_of_lt h]

theorem mod_distance {q p c : ℕ} (hpos : 0<q) (hc : c≤p) (hp : p ≤ c+q) :
    (p%q=c%q ∧ (p=c ∨ p=c+q)) ∨ (c%q<p%q ∧ p-c=p%q-c%q) ∨
      (p%q < c%q ∧ p-c=q-(c%q-p%q)) := by
  have hlt : c%q<q := mod_lt _ hpos
  obtain ⟨d,rfl⟩ := Nat.exists_eq_add_of_le hc
  rcases lt_or_ge (c%q+d) q with hin | hout
  · rw [mod_add_of_lt hin,Nat.add_sub_cancel_left,Nat.add_sub_cancel_left]
    rcases Nat.eq_zero_or_pos d with rfl | hd
    · exact .inl ⟨rfl,.inl rfl⟩
    · exact .inr (.inl ⟨Nat.lt_add_of_pos_right hd,rfl⟩)
  · have hwrap : (c+d)%q=c%q+d-q := by
      rcases lt_or_ge d q with hd | hd
      · rw [add_mod,mod_eq_of_lt hd,mod_eq_sub_mod hout]
        exact mod_eq_of_lt (by omega)
      · obtain rfl : d=q := by omega
        rw [add_mod_right]
        omega
    rw [hwrap,Nat.add_sub_cancel_left]
    rcases lt_or_ge d q with hd | hd
    · exact .inr (.inr ⟨by omega,by omega⟩)
    · obtain rfl : d=q := by omega
      exact .inl ⟨Nat.add_sub_cancel ..,.inr rfl⟩

def Stored (f : ℕ → β) (q c : ℕ) (l : List β) : Prop := ∀ i, c ≤ i → ∀ x, l[i]? = some x → f (i % q) = x

section

variable {f : ℕ → β} {q c : ℕ} {l : List β} (h : Stored f q c l)
include h

theorem Stored.append {new : List β} (hrm : l.length%q+new.length≤q)
    (hfr : l.length+new.length ≤ c+q) : Stored (store f (l.length%q) new) q c (l ++ new) := by
  intro i hi x hx
  rcases lt_or_ge i l.length with hlt | hge
  · rw [List.getElem?_append_left hlt] at hx
    rw [store_of_out,h i hi x hx]
    by_contra hin
    rw [not_or,not_lt,not_le] at hin
    -- an old place would be that of a new element
    obtain ⟨d,hd⟩ := Nat.exists_eq_add_of_le hin.1
    have hd' : l.length%q+d<q := by omega
    have hpla := mod_add_of_lt hd'
    exact mod_ne_mod (q := q) (i := i) (j := l.length+d) (by omega) (by omega) (by omega)
  · obtain ⟨d,rfl⟩ := Nat.exists_eq_add_of_le hge
    rw [List.getElem?_append_right hge,Nat.add_sub_cancel_left] at hx
    have hd : d<new.length := (List.getElem?_eq_some_iff.mp hx).1
    rw [mod_add_of_lt (by omega)]
    exact store_of_lt hx

theorem Stored.mono {c' : ℕ} (hc : c ≤ c') : Stored f q c' l := fun i hi => h i (le_trans hc hi)

theorem Stored.load {n : ℕ} (hn : c%q+n≤q) (hl : c+n≤l.length) :
    (List.range n).map (fun i => f (c%q+i)) = (l.drop c).take n := by
  apply ext_getElem
  · rw [length_map,length_range,length_take,length_drop]
    omega
  · intro i hi hi'
    rw [length_map,length_range] at hi
    rw [getElem_map,getElem_range,getElem_take,getElem_drop,← mod_add_of_lt (show c%q+i<q by omega)]
    exact h (c+i) (Nat.le_add_right _ _) _ (List.getElem?_eq_getElem (by omega))

end

end CircularBuffer

section Turns

variable {N i k : ℕ}

section

variable (hi : i < N) (hk : k ≤ N)
include hi hk

theorem turn_mod : (i+k)%N = if i+k<N then i+k else i+k-N := by
  split
  case isTrue hlt => exact mod_eq_of_lt hlt
  case isFalse hge => rw [mod_eq_sub_mod (not_lt.mp hge),mod_eq_of_lt (by omega)]

theorem turn_back_mod : (i+N-k)%N = if k ≤ i then i-k else i+N-k := by
  rw [Nat.add_sub_assoc hk,turn_mod hi (sub_le N k)]
  split <;> split <;> omega

theorem turn_turn_back : ((i+k)%N+N-k)%N=i := by
  rw [turn_back_mod (mod_lt _ (zero_lt_of_lt hi)) hk,turn_mod hi hk]
  split <;> split <;> omega

theorem turn_back_turn : ((i+N-k)%N+k)%N=i := by
  rw [turn_mod (mod_lt _ (zero_lt_of_lt hi)) hk,turn_back_mod hi hk]
  split <;> split <;> omega

end

theorem turn_sub (hi : i<N) (hk : k<N) : ((i+k)%N+N-i)%N=k := by
  rw [turn_back_mod (mod_lt _ (zero_lt_of_lt hi)) hi.le,turn_mod hi hk.le]
  split <;> split <;> omega

end Turns

end PAMI.Math
