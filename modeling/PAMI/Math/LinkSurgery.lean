import PAMI.Math.Links

namespace PAMI.Math

open Function List

section Surgery

variable {α : Type*} {next prev : α → Option α} {before after : Option α} {l l' : List α} {x : α}

theorem Segment.reverse (h : Segment next prev before l after) : Segment prev next after l.reverse before := by
  induction l generalizing before with
  | nil => trivial
  | cons x l ih =>
    obtain ⟨hp,hn,hl⟩ := h
    rw [reverse_cons,segment_append]
    refine ⟨by simpa using ih hl,?_,by simpa using hp,trivial⟩
    simpa [List.getLast?_reverse] using hn

theorem Segment.path (h : Segment next prev before l none) : Path next l.head? l := by
  induction l generalizing before with
  | nil => rfl
  | cons x l ih =>
    obtain ⟨-,hn,hl⟩ := h
    refine ⟨rfl,?_⟩
    simpa [hn] using ih hl

variable [DecidableEq α]

theorem Segment.link (h : Segment next prev before (l ++ l') after) (hnod : (l ++ l').Nodup) (hx : x ∉ l ++ l') :
    Segment (setLink (update next x (l'.head?.or after)) l.getLast? (some x))
      (setLink (update prev x (l.getLast?.or before)) l'.head? (some x)) before (l ++ x :: l') after := by
  obtain ⟨hl,hl'⟩ := segment_append.mp h
  obtain ⟨hnl,hnl',hdisj⟩ := nodup_append.mp hnod
  simp only [mem_append,not_or] at hx
  have hla : l.getLast? ≠ some x := fun heq => hx.1 (mem_of_getLast? heq)
  have hhe : l'.head? ≠ some x := fun heq => hx.2 (mem_of_head? heq)
  have hfre : ∀ (f : α → Option α) (v : Option α), ∀ y ∈ l ++ l', update f x v y = f y := by
    intro f v y hy
    apply update_of_ne
    rintro rfl
    simp [hx] at hy
  refine segment_append.mpr ⟨?_,by simp [setLink_of_ne hhe],by simp [setLink_of_ne hla],?_⟩
  · have hnew : Segment (update next x (l'.head?.or after)) (update prev x (l.getLast?.or before)) before l
        (l'.head?.or after) :=
      hl.congr (fun y hy => hfre _ _ y (by simp [hy])) fun y hy => hfre _ _ y (by simp [hy])
    refine (hnew.setNext hnl (some x)).congr (fun _ _ => rfl) fun y hy => setLink_of_ne fun heq => ?_
    exact hdisj y hy y (mem_of_head? heq) rfl
  · have hnew : Segment (update next x (l'.head?.or after)) (update prev x (l.getLast?.or before)) (l.getLast?.or before) l'
        after :=
      hl'.congr (fun y hy => hfre _ _ y (by simp [hy])) fun y hy => hfre _ _ y (by simp [hy])
    refine (hnew.setPrev hnl' (some x)).congr (fun y hy => setLink_of_ne fun heq => ?_) fun _ _ => rfl
    exact hdisj y (mem_of_getLast? heq) y hy rfl

theorem Segment.unlink (h : Segment next prev before (l ++ x :: l') after) (hnod : (l ++ x :: l').Nodup) :
    Segment (setLink next l.getLast? (l'.head?.or after)) (setLink prev l'.head? (l.getLast?.or before)) before (l ++ l')
      after := by
  obtain ⟨hl,-,-,hl'⟩ := segment_append.mp h
  obtain ⟨hnl,hnx,hdisj⟩ := nodup_append.mp hnod
  have hne : ∀ y ∈ l, ∀ z ∈ l', y≠z := fun y hy z hz => hdisj y hy z (by simp [hz])
  refine segment_append.mpr ⟨?_,?_⟩
  · refine (hl.setNext hnl _).congr (fun _ _ => rfl) fun y hy => setLink_of_ne fun heq => ?_
    exact hne y hy y (mem_of_head? heq) rfl
  · refine (hl'.setPrev (nodup_cons.mp hnx).2 _).congr (fun y hy => setLink_of_ne fun heq => ?_) fun _ _ => rfl
    exact hne y (mem_of_getLast? heq) y hy rfl

theorem setLink_congr {f g : α → Option α} {a v : Option α} {y : α} (h : f y = g y) :
    setLink f a v y = setLink g a v y := by
  cases a with
  | none => exact h
  | some a => by_cases hy : y=a <;> simp [setLink,hy,h]

theorem Segment.join {h f : α} (hl : Segment next prev l.getLast? l l.head?)
    (hl' : Segment next prev l'.getLast? l' l'.head?) (hnod : (l ++ l').Nodup) (hh : l.head? = some h)
    (hf : l'.head? = some f) :
    Segment (setLink (setLink next l.getLast? (some f)) l'.getLast? (some h))
      (setLink (setLink prev (some f) l.getLast?) (some h) l'.getLast?) l'.getLast? (l ++ l') (some h) := by
  obtain ⟨hnl,hnl',hdisj⟩ := nodup_append.mp hnod
  have hla : l.getLast?.or l'.getLast? = l.getLast? := by
    cases l with
    | nil => simp at hh
    | cons x l => simp [List.getLast?_cons]
  refine segment_append.mpr ⟨?_,?_⟩
  · rw [hf,Option.some_or,← hf,← hh]
    refine ((hl.setNext hnl _).setPrev hnl _).congr (fun y hy => setLink_of_ne fun heq => ?_) fun y hy => ?_
    · exact hdisj y hy y (mem_of_getLast? heq) rfl
    · exact setLink_congr (setLink_of_ne fun heq => hdisj y hy y (mem_of_head? heq) rfl)
  · rw [hla,← hf,← hh]
    refine ((hl'.setNext hnl' _).setPrev hnl' _).congr (fun y hy => ?_) fun y hy => setLink_of_ne fun heq => ?_
    · exact setLink_congr (setLink_of_ne fun heq => hdisj y (mem_of_getLast? heq) y hy rfl)
    · exact hdisj y (mem_of_head? heq) y hy rfl

end Surgery

end PAMI.Math
