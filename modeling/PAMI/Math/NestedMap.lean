import Mathlib.Data.List.AList

namespace PAMI.Math

section NestedMap

variable {α β γ : Type*} [DecidableEq α] [DecidableEq β]

/-- A map to maps, none of which is empty. -/
structure NestedMap (α β γ : Type*) [DecidableEq α] [DecidableEq β] where
  maps : AList fun _ : α => AList fun _ : β => γ
  nonempty : ∀ a m, maps.lookup a = some m → m ≠ ∅

namespace NestedMap

def empty : NestedMap α β γ := ⟨∅, by simp⟩

def get (t : NestedMap α β γ) (a : α) (b : β) : Option γ := (t.maps.lookup a).bind fun m => m.lookup b

/-- A value is put into the inner map, which is created when it is missing. -/
def set (t : NestedMap α β γ) (a : α) (b : β) (c : γ) : NestedMap α β γ where
  maps := t.maps.insert a (((t.maps.lookup a).getD ∅).insert b c)
  nonempty := by
    intro a' m hm
    by_cases ha : a' = a
    · subst ha
      rw [AList.lookup_insert] at hm
      obtain rfl := Option.some.inj hm
      intro hnil
      have hmem : b ∈ ((t.maps.lookup a').getD ∅).insert b c := by simp
      rw [hnil] at hmem
      exact AList.notMem_empty b hmem
    · rw [AList.lookup_insert_ne ha] at hm
      exact t.nonempty a' m hm

/-- A value is erased from its inner map, and the inner map too when it is left empty. -/
def drop (t : NestedMap α β γ) (a : α) (b : β) : NestedMap α β γ :=
  match h : t.maps.lookup a with
  | none => t
  | some m =>
    if hm : (m.erase b).entries = [] then
      { maps := t.maps.erase a
        nonempty := by
          intro a' m' hm'
          by_cases ha : a' = a
          · subst ha
            simp at hm'
          · rw [AList.lookup_erase_ne ha] at hm'
            exact t.nonempty a' m' hm' }
    else
      { maps := t.maps.insert a (m.erase b)
        nonempty := by
          intro a' m' hm'
          by_cases ha : a' = a
          · subst ha
            rw [AList.lookup_insert] at hm'
            obtain rfl := Option.some.inj hm'
            intro hnil
            exact hm (by rw [hnil, AList.empty_entries])
          · rw [AList.lookup_insert_ne ha] at hm'
            exact t.nonempty a' m' hm' }

variable (t : NestedMap α β γ) {a a' : α} {b b' : β} {c : γ}

theorem get_empty : (empty : NestedMap α β γ).get a b = none := by simp [get,empty]

theorem get_set : (t.set a b c).get a' b' = if a'=a ∧ b'=b then some c else t.get a' b' := by
  by_cases ha : a'=a
  · subst ha
    by_cases hb : b'=b
    · subst hb
      simp [get,set]
    · have hins : (((t.maps.lookup a').getD ∅).insert b c).lookup b' = t.get a' b' := by
        rw [AList.lookup_insert_ne hb,get]
        cases t.maps.lookup a' <;> simp
      simpa [get,set,hb] using hins
  · simp [get,set,ha,AList.lookup_insert_ne]

theorem get_drop : (t.drop a b).get a' b' = if a'=a ∧ b'=b then none else t.get a' b' := by
  rw [drop]
  split
  case h_1 hnn =>
    split
    case isTrue heq =>
      obtain ⟨rfl,rfl⟩ := heq
      simp [get,hnn]
    case isFalse => rfl
  case h_2 m hm =>
    by_cases hnil : (m.erase b).entries = []
    · have hemp : m.erase b = ∅ := AList.ext hnil
      rw [dif_pos hnil]
      by_cases ha : a'=a
      · subst ha
        by_cases hb : b'=b
        · simp [get,hb]
        · have hloo : m.lookup b'=none := by rw [← AList.lookup_erase_ne hb,hemp,AList.lookup_empty]
          simp [get,hb,hm,hloo]
      · simp [get,ha,AList.lookup_erase_ne]
    · rw [dif_neg hnil]
      by_cases ha : a'=a
      · subst ha
        by_cases hb : b'=b
        · subst hb
          simp [get]
        · simp [get,hb,hm,AList.lookup_erase_ne]
      · simp [get,ha,AList.lookup_insert_ne]

end NestedMap

end NestedMap

end PAMI.Math
