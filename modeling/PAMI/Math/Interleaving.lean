import Mathlib.Data.List.Basic

namespace PAMI.Math

/-- An entry of a log of posts: the stream it belongs to and where that goes, and whether it opens the
stream. -/
structure Entry (ι : Type*) where
  stream : ℕ
  target : ι
  opening : Bool
  deriving DecidableEq, Repr

variable {ι : Type*} {log block : List (Entry ι)} {i : ℕ}

def Overtaken (log : List (Entry ι)) (i : ℕ) : Prop :=
  ∃ a b, [a, b].Sublist log ∧ a.stream = i ∧ a.opening ∧ b.opening ∧ b.stream ≠ i ∧ b.target = a.target

/-- Another stream to the same target was opened between the opening of a stream and a later entry of
it. -/
def Interleaved (log : List (Entry ι)) : Prop :=
  ∃ a b c, [a, b, c].Sublist log ∧ a.opening ∧ b.opening ∧ b.stream ≠ a.stream ∧
    b.target = a.target ∧ c.stream = a.stream

theorem pair_sublist_append {α : Type*} {a b : α} {l r : List α} (h : [a,b].Sublist (l ++ r)) :
    [a,b].Sublist l ∨ b ∈ r ∧ (a ∈ l ∨ a ∈ r) := by
  obtain ⟨l1,l2,hl,h1,h2⟩ := List.sublist_append_iff.mp h
  match l1, hl with
  | [], hl =>
    obtain rfl : [a,b]=l2 := hl
    exact .inr ⟨h2.subset (by simp),.inr (h2.subset (by simp))⟩
  | [x], hl =>
    obtain ⟨rfl,rfl⟩ : a=x ∧ [b]=l2 := List.cons.inj hl
    exact .inr ⟨h2.subset (by simp),.inl (h1.subset (by simp))⟩
  | [x,y], hl =>
    obtain ⟨rfl,rfl,-⟩ : a=x ∧ b=y ∧ l2 = [] := by simpa using hl
    exact .inl h1
  | x :: y :: z :: l1, hl => simp at hl

theorem triple_sublist_append {α : Type*} {a b c : α} {l r : List α}
    (h : [a,b,c].Sublist (l ++ r)) :
    [a,b,c].Sublist l ∨ c ∈ r ∧ ([a,b].Sublist l ∨ b ∈ r) := by
  obtain ⟨l1,l2,hl,h1,h2⟩ := List.sublist_append_iff.mp h
  match l1, hl with
  | [], hl =>
    obtain rfl : [a,b,c]=l2 := hl
    exact .inr ⟨h2.subset (by simp),.inr (h2.subset (by simp))⟩
  | [x], hl =>
    obtain ⟨rfl,rfl⟩ : a=x ∧ [b,c]=l2 := List.cons.inj hl
    exact .inr ⟨h2.subset (by simp),.inr (h2.subset (by simp))⟩
  | [x,y], hl =>
    obtain ⟨rfl,rfl,rfl⟩ : a=x ∧ b=y ∧ [c]=l2 := by simpa using hl
    exact .inr ⟨h2.subset (by simp),.inl h1⟩
  | [x,y,z], hl =>
    obtain ⟨rfl,rfl,rfl,-⟩ : a=x ∧ b=y ∧ c=z ∧ l2 = [] := by simpa using hl
    exact .inl h1
  | x :: y :: z :: w :: l1, hl => simp at hl

section Append

variable (hblo : ∀ e ∈ block, e.stream = i)

theorem Overtaken.of_append_open {j : ℕ} (hopen : ∀ e ∈ block, e.opening=false)
    (h : Overtaken (log ++ block) j) : Overtaken log j := by
  obtain ⟨a,b,hsub,ha,hoa,hob,hb,htar⟩ := h
  rcases pair_sublist_append hsub with hsub | ⟨hb',-⟩
  · exact ⟨a,b,hsub,ha,hoa,hob,hb,htar⟩
  · rw [hopen b hb'] at hob
    cases hob

include hblo

theorem Interleaved.of_append_open (hopen : ∀ e ∈ block, e.opening=false)
    (h : Interleaved (log ++ block)) : Interleaved log ∨ block ≠ [] ∧ Overtaken log i := by
  obtain ⟨a,b,c,hsub,hoa,hob,hb,htar,hc⟩ := h
  rcases triple_sublist_append hsub with hsub | ⟨hc',hsub | hb'⟩
  · exact .inl ⟨a,b,c,hsub,hoa,hob,hb,htar,hc⟩
  · have ha : a.stream=i := by rw [← hc,hblo c hc']
    exact .inr ⟨List.ne_nil_of_mem hc',a,b,hsub,ha,hoa,hob,by rwa [ha] at hb,htar⟩
  · rw [hopen b hb'] at hob
    cases hob

theorem Interleaved.of_append_new (hnew : ∀ e ∈ log, e.stream≠i)
    (h : Interleaved (log ++ block)) : Interleaved log := by
  obtain ⟨a,b,c,hsub,hoa,hob,hb,htar,hc⟩ := h
  rcases triple_sublist_append hsub with hsub | ⟨hc',hsub | hb'⟩
  · exact ⟨a,b,c,hsub,hoa,hob,hb,htar,hc⟩
  · have ha : a ∈ log := hsub.subset (by simp)
    exact absurd (hc.symm.trans (hblo c hc')) (hnew a ha)
  · exact absurd ((hblo b hb').trans ((hblo c hc').symm.trans hc)) hb

theorem Overtaken.of_append_new {j : ℕ} (h : Overtaken (log ++ block) j) :
    Overtaken log j ∨ j≠i ∧ ∃ a ∈ log, ∃ b ∈ block, a.stream=j ∧ b.opening ∧ b.target=a.target := by
  obtain ⟨a,b,hsub,ha,hoa,hob,hb,htar⟩ := h
  rcases pair_sublist_append hsub with hsub | ⟨hb',ha'⟩
  · exact .inl ⟨a,b,hsub,ha,hoa,hob,hb,htar⟩
  · have hj : j≠i := fun hj => hb ((hblo b hb').trans hj.symm)
    rcases ha' with ha' | ha'
    · exact .inr ⟨hj,a,ha',b,hb',ha,hob,htar⟩
    · exact absurd (ha.symm.trans (hblo a ha')) hj

end Append

end PAMI.Math
