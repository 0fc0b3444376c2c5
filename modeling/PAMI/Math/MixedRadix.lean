import Mathlib.Algebra.Order.Group.Nat

namespace PAMI.Math

open Function Nat

/-- A box of points with `d` coordinates, between two corners. -/
structure Box where
  ll : ℕ → ℕ
  ur : ℕ → ℕ

namespace Box

variable (b : Box)

def width (x : ℕ) : ℕ := b.ur x - b.ll x + 1

@[grind =] def card : ℕ → ℕ
  | 0 => 1
  | d + 1 => card d * b.width d

def Inside (d : ℕ) (c : ℕ → ℕ) : Prop := ∀ x < d, b.ll x ≤ c x ∧ c x ≤ b.ur x

def inter (b' : Box) : Box := ⟨fun x => max (b.ll x) (b'.ll x), fun x => min (b.ur x) (b'.ur x)⟩

/-- The place of a point, with the last coordinate least significant. -/
@[grind =] def encode (c : ℕ → ℕ) : ℕ → ℕ
  | 0 => 0
  | d + 1 => encode c d * b.width d + (c d - b.ll d)

@[grind =] def decode : ℕ → ℕ → ℕ → ℕ
  | 0, _ => b.ll
  | d + 1, i => update (decode d (i / b.width d)) d (b.ll d + i % b.width d)

variable {b} {c c' : ℕ → ℕ} {d i : ℕ}

theorem width_pos (x : ℕ) : 0 < b.width x := succ_pos _

theorem card_pos (d : ℕ) : 0 < b.card d := by
  induction d with
  | zero => exact Nat.one_pos
  | succ d ih => exact Nat.mul_pos ih (width_pos d)

theorem Inside.mono (h : b.Inside (d+1) c) : b.Inside d c := fun x hx => h x (by omega)

theorem inside_inter {b' : Box} : (b.inter b').Inside d c ↔ b.Inside d c ∧ b'.Inside d c := by
  simp only [Inside,inter,max_le_iff,le_min_iff]
  constructor
  · intro h
    exact ⟨fun x hx => ⟨(h x hx).1.1,(h x hx).2.1⟩,fun x hx => ⟨(h x hx).1.2,(h x hx).2.2⟩⟩
  · rintro ⟨h,h'⟩ x hx
    exact ⟨⟨(h x hx).1,(h' x hx).1⟩,(h x hx).2,(h' x hx).2⟩

theorem card_le_succ : b.card d ≤ b.card (d+1) := Nat.le_mul_of_pos_right _ (width_pos d)

theorem width_le_card : b.width d ≤ b.card (d+1) := Nat.le_mul_of_pos_left _ (card_pos d)

theorem encode_congr (h : ∀ x<d, c x = c' x) : b.encode c d = b.encode c' d := by
  induction d with
  | zero => rfl
  | succ d ih => rw [encode,encode,ih fun x hx => h x (by omega),h d (by omega)]

theorem digit_lt (h : b.Inside (d+1) c) : c d-b.ll d < b.width d := by
  have := h d (by omega)
  unfold width
  omega

theorem encode_lt (h : b.Inside d c) : b.encode c d < b.card d := by
  induction d with
  | zero => exact Nat.one_pos
  | succ d ih =>
    have hlt := ih h.mono
    have hdig := digit_lt h
    calc b.encode c (d+1) < b.encode c d*b.width d+b.width d := by
          rw [encode]; omega
      _ = (b.encode c d+1)*b.width d := by rw [Nat.add_mul,Nat.one_mul]
      _ ≤ b.card (d+1) := Nat.mul_le_mul_right _ hlt

theorem decode_inside (h : ∀ x<d, b.ll x ≤ b.ur x) : b.Inside d (b.decode d i) := by
  induction d generalizing i with
  | zero => intro x hx; omega
  | succ d ih =>
    intro x hx
    rw [decode]
    by_cases hxd : x=d
    · subst hxd
      have := h x (by omega)
      have := mod_lt i (b.width_pos x)
      rw [update_self]
      unfold width at this ⊢
      omega
    · rw [update_of_ne hxd]
      exact ih (fun y hy => h y (by omega)) x (by omega)

theorem encode_decode (h : i < b.card d) : b.encode (b.decode d i) d = i := by
  induction d generalizing i with
  | zero => rw [card] at h; rw [encode]; omega
  | succ d ih =>
    have hq : i/b.width d < b.card d := by
      rw [card] at h
      exact (Nat.div_lt_iff_lt_mul (width_pos d)).2 h
    have hrs : b.encode (b.decode (d+1) i) d = i/b.width d := by
      rw [← ih hq]
      refine encode_congr fun x hx => ?_
      rw [decode,update_of_ne (by omega)]
    rw [encode,hrs,decode,update_self,Nat.add_sub_cancel_left,mul_comm]
    exact div_add_mod i _

theorem decode_encode (h : b.Inside d c) : ∀ x<d, b.decode d (b.encode c d) x = c x := by
  induction d with
  | zero => intro x hx; omega
  | succ d ih =>
    intro x hx
    have hdig := digit_lt h
    rw [decode,encode,mul_comm (b.encode c d),mul_add_div (width_pos d),
      div_eq_of_lt hdig,add_zero,mul_add_mod,mod_eq_of_lt hdig]
    by_cases hxd : x=d
    · subst hxd
      rw [update_self]
      have := h x (by omega)
      omega
    · rw [update_of_ne hxd]
      exact ih h.mono x (by omega)

theorem decode_zero (d : ℕ) : b.decode d 0 = b.ll := by
  induction d with
  | zero => rfl
  | succ d ih => simp [decode,ih]

theorem encode_corner (d : ℕ) : b.encode b.ll d = 0 := by
  induction d with
  | zero => rfl
  | succ d ih => rw [encode,ih]; simp

theorem encode_injective (h : b.Inside d c) (h' : b.Inside d c')
    (he : b.encode c d = b.encode c' d) : ∀ x<d, c x = c' x := by
  intro x hx
  rw [← decode_encode h x hx,he,decode_encode h' x hx]

end Box

end PAMI.Math
