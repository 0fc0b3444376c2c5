import Mathlib.Data.List.Chain
import Mathlib.Data.List.Nodup

namespace PAMI.Math

open List Option Function

section Links

variable {α : Type*}

@[grind =] def Segment (next prev : α → Option α) (before : Option α) : List α → Option α → Prop
  | [], _ => True
  | x :: l, after => prev x = before ∧ next x = l.head?.or after ∧ Segment next prev (some x) l after

variable {next next' prev prev' : α → Option α} {before after : Option α} {l l' : List α}

theorem segment_append :
    Segment next prev before (l ++ l') after ↔ Segment next prev before l (l'.head?.or after) ∧
        Segment next prev (l.getLast?.or before) l' after := by
  induction l generalizing before with
  | nil => simp [Segment]
  | cons x l ih =>
    have hla : (x :: l).getLast?.or before = l.getLast?.or (some x) := by
      cases l <;> simp [List.getLast?_cons]
    simp only [cons_append,Segment,ih,hla,List.head?_append,Option.or_assoc,and_assoc]

theorem Segment.congr (h : Segment next prev before l after)
    (hnx : ∀ x ∈ l, next' x = next x) (hprev : ∀ x ∈ l, prev' x = prev x) :
    Segment next' prev' before l after := by
  induction l generalizing before with
  | nil => trivial
  | cons x l ih =>
    obtain ⟨hp,hn,hl⟩ := h
    refine ⟨(hprev x (by simp)).trans hp,(hnx x (by simp)).trans hn,ih hl ?_ ?_⟩
    · exact fun y hy => hnx y (by simp [hy])
    · exact fun y hy => hprev y (by simp [hy])

theorem segment_unique (hhe : l.head? = l'.head?) (h : Segment next prev before l none)
    (h' : Segment next prev before l' none) : l=l' := by
  induction l generalizing l' before with
  | nil =>
    rw [List.head?_nil,eq_comm,List.head?_eq_none_iff] at hhe
    exact hhe.symm
  | cons x l ih =>
    cases l' with
    | nil => simp at hhe
    | cons y l' =>
      obtain rfl : x=y := by simpa using hhe
      obtain ⟨-,hn,hl⟩ := h
      obtain ⟨-,hn',hl'⟩ := h'
      have hnx : l.head? = l'.head? := by simpa using hn.symm.trans hn'
      rw [ih hnx hl hl']

variable [DecidableEq α]

def setLink (link : α → Option α) (x : Option α) (value : Option α) : α → Option α :=
  match x with
  | none => link
  | some x => Function.update link x value

theorem setLink_of_ne {link : α → Option α} {x value : Option α} {y : α} (h : x ≠ some y) :
    setLink link x value y = link y := by
  cases x with
  | none => rfl
  | some x => exact update_of_ne (fun heq => h (by rw [heq])) _ _

theorem Segment.setNext (h : Segment next prev before l after) (hl : l.Nodup)
    (after' : Option α) : Segment (setLink next l.getLast? after') prev before l after' := by
  obtain rfl | ⟨l,x,rfl⟩ := l.eq_nil_or_concat'
  · trivial
  · obtain ⟨hfro,hp,_⟩ := segment_append.mp h
    have hx : x ∉ l := fun hmem => (nodup_append.mp hl).2.2 x hmem x (by simp) rfl
    refine segment_append.mpr ⟨hfro.congr ?_ fun _ _ => rfl,hp,?_,trivial⟩
    · intro y hy
      apply setLink_of_ne
      simp only [List.getLast?_append,List.getLast?_singleton,some_or,ne_eq,some_inj]
      exact fun heq => hx (heq ▸ hy)
    · simp [setLink]

theorem Segment.setPrev (h : Segment next prev before l after) (hl : l.Nodup)
    (before' : Option α) : Segment next (setLink prev l.head? before') before' l after := by
  cases l with
  | nil => trivial
  | cons x l =>
    obtain ⟨_,hn,hrs⟩ := h
    have hx : x ∉ l := (nodup_cons.mp hl).1
    refine ⟨by simp [setLink],hn,hrs.congr (fun _ _ => rfl) fun y hy => ?_⟩
    apply setLink_of_ne
    simp only [List.head?_cons,ne_eq,some_inj]
    exact fun heq => hx (heq ▸ hy)

end Links

open Function

section BrokenChain

variable {α : Type*} (next : α → Option α) (pending : α → Option α → Prop)

def Follows (x y : α) : Prop :=
  (next x = some y ∧ ∀ t, ¬ pending y t) ∨ (next x = none ∧ ∀ t, pending y t ↔ t = some x)

/-- Elements in the order in which they were appended, some links of which are still to be stored. -/
structure BrokenChain (l : List α) : Prop where
  follows : l.IsChain (Follows next pending)
  last : ∀ x ∈ l.getLast?, next x = none

/-- The elements met from a first one, by their links. -/
def Path : Option α → List α → Prop
  | first, [] => first = none
  | first, x :: l => first = some x ∧ Path (next x) l

variable {next next' : α → Option α} {pending pending' : α → Option α → Prop} {l m A B : List α}
  {x y e : α}

theorem Follows.congr (h : Follows next pending x y) (hnx : next' x = next x)
    (hpen : ∀ t, pending' y t ↔ pending y t) : Follows next' pending' x y := by
  simpa only [Follows,hnx,hpen] using h

theorem BrokenChain.nil : BrokenChain next pending [] := ⟨.nil,by simp⟩

theorem BrokenChain.congr (h : BrokenChain next pending l) (hnx : ∀ x ∈ l, next' x = next x)
    (hpen : ∀ y ∈ l.tail, ∀ t, pending' y t ↔ pending y t) : BrokenChain next' pending' l := by
  constructor
  · exact h.follows.imp_of_mem_tail_imp fun _ _ hx hy hf => hf.congr (hnx _ hx) (hpen _ hy)
  · exact fun x hx => (hnx x (mem_of_getLast? hx)).trans (h.last x hx)

theorem BrokenChain.snoc (h : BrokenChain next pending l) (he : next e = none)
    (hpen : ∀ t, pending e t ↔ t=l.getLast?) : BrokenChain next pending (l ++ [e]) := by
  refine ⟨isChain_append.mpr ⟨h.follows,.singleton e,?_⟩,by simpa using he⟩
  intro x hx y hy
  obtain rfl : e=y := by simpa using hy
  have hla : l.getLast? = some x := hx
  exact .inr ⟨h.last x hx,by simpa [hla] using hpen⟩

theorem BrokenChain.split (h : BrokenChain next pending (A ++ x :: y :: B)) :
    Follows next pending x y :=
  (isChain_cons_cons.mp (isChain_append.mp h.follows).2.1).1

theorem BrokenChain.pending_split (h : BrokenChain next pending l) (hy : y ∈ l)
    (hhe : l.head? ≠ some y) {t : Option α} (hpen : pending y t) :
    ∃ A x B, t = some x ∧ next x = none ∧ l = A ++ x :: y :: B := by
  obtain ⟨A,B,rfl⟩ := append_of_mem hy
  obtain rfl | ⟨A,z,rfl⟩ := A.eq_nil_or_concat'
  · simp at hhe
  · rw [append_assoc] at h
    obtain hf | hf := BrokenChain.split h
    · exact absurd hpen (hf.2 _)
    · exact ⟨A,z,B,(hf.2 t).mp hpen,hf.1,by simp⟩

variable [DecidableEq α] {first : Option α}

theorem BrokenChain.store (h : BrokenChain next pending (A ++ x :: y :: B))
    (hnod : (A ++ x :: y :: B).Nodup)
    (hpen : ∀ z t, pending' z t ↔ z≠y ∧ pending z t) :
    BrokenChain (update next x (some y)) pending' (A ++ x :: y :: B) := by
  obtain ⟨-,hxyB,hdisj⟩ := nodup_append.mp hnod
  obtain ⟨hx,hyB⟩ := nodup_cons.mp hxyB
  have hy := (nodup_cons.mp hyB).1
  have hnx : ∀ a, a≠x → update next x (some y) a = next a := fun a ha => update_of_ne ha _ _
  have hpend : ∀ b, b≠y → ∀ t, pending' b t ↔ pending b t := by
    intro b hb t
    simp [hpen,hb]
  have hAx : ∀ a ∈ A, a≠x ∧ a≠y := fun a ha => ⟨hdisj a ha x (by simp),hdisj a ha y (by simp)⟩
  have hxy : x≠y := fun heq => hx (by simp [heq])
  obtain ⟨hA,hta,hlink⟩ := isChain_append.mp h.follows
  obtain ⟨-,hB⟩ := isChain_cons_cons.mp hta
  constructor
  · refine isChain_append.mpr ⟨?_,isChain_cons_cons.mpr ⟨?_,?_⟩,?_⟩
    · exact hA.imp_of_mem_imp fun _ _ ha hb hf => hf.congr (hnx _ (hAx _ ha).1) (hpend _ (hAx _ hb).2)
    · exact .inl ⟨by simp,fun t => by simp [hpen]⟩
    · refine hB.imp_of_mem_tail_imp fun a b ha hb hf => hf.congr (hnx _ ?_) (hpend _ ?_)
      · exact fun heq => hx (heq ▸ ha)
      · exact fun heq => hy (heq ▸ hb)
    · intro a ha b hb
      obtain rfl : x=b := by simpa using hb
      have hmem := mem_of_getLast? ha
      exact (hlink a ha x (by simp)).congr (hnx _ (hAx a hmem).1) (hpend _ hxy)
  · intro a ha
    have hmem : a ∈ y :: B := mem_of_getLast? (by simpa using ha)
    rw [hnx a fun heq => hx (heq ▸ hmem)]
    exact h.last a ha

theorem BrokenChain.join (hl : BrokenChain next pending l) (hm : BrokenChain next pending m)
    (hnod : (l ++ m).Nodup) (hy : m.head? = some y) (hpen : ∀ t, ¬ pending y t) :
    BrokenChain (setLink next l.getLast? (some y)) pending (l ++ m) := by
  obtain rfl | ⟨l,x,rfl⟩ := l.eq_nil_or_concat'
  · simpa [setLink] using hm
  obtain ⟨hnl,-,hdisj⟩ := nodup_append.mp hnod
  have hx : ∀ a ∈ l, a≠x := fun a ha => (nodup_append.mp hnl).2.2 a ha x (by simp)
  have hnx : ∀ a, a≠x → setLink next (l ++ [x]).getLast? (some y) a = next a :=
    fun a ha => setLink_of_ne (by simpa using Ne.symm ha)
  have hmx : ∀ a ∈ m, a≠x := fun a ha => Ne.symm (hdisj x (by simp) a ha)
  obtain ⟨hcha,-,hlink⟩ := isChain_append.mp hl.follows
  constructor
  · refine isChain_append.mpr ⟨isChain_append.mpr ⟨?_,.singleton x,?_⟩,?_,?_⟩
    · exact hcha.imp_of_mem_imp fun _ _ ha _ hf => hf.congr (hnx _ (hx _ ha)) fun _ => Iff.rfl
    · intro a ha b hb
      exact (hlink a ha b hb).congr (hnx _ (hx a (mem_of_getLast? ha))) fun _ => Iff.rfl
    · exact hm.follows.imp_of_mem_imp fun _ _ ha _ hf => hf.congr (hnx _ (hmx _ ha)) fun _ => Iff.rfl
    · intro a ha b hb
      obtain rfl : x=a := by simpa using ha
      obtain rfl : y=b := by simpa [hy] using hb
      exact .inl ⟨by simp [setLink],hpen⟩
  · intro a ha
    cases m with
    | nil => simp at hy
    | cons z m =>
      have hla : a ∈ (z :: m).getLast? := by simpa [List.getLast?_append] using ha
      rw [hnx a (hmx a (mem_of_getLast? hla))]
      exact hm.last a hla

theorem BrokenChain.remove (h : BrokenChain next pending (A ++ x :: B))
    (hnod : (A ++ x :: B).Nodup) (hsto : B = [] ∨ next x ≠ none) :
    BrokenChain (setLink next A.getLast? (next x)) pending (A ++ B) := by
  obtain ⟨hnA,hnxB,hdisj⟩ := nodup_append.mp hnod
  obtain ⟨hA,hxB,-⟩ := isChain_append.mp h.follows
  have hAB : ∀ a ∈ A, ∀ b ∈ B, a≠b := fun a ha b hb => hdisj a ha b (by simp [hb])
  have hB : BrokenChain next pending B := by
    cases B with
    | nil => exact .nil
    | cons y B => exact ⟨(isChain_cons_cons.mp hxB).2,fun b hb => h.last b (by simpa using hb)⟩
  have hfro : A.IsChain (Follows (setLink next A.getLast? (next x)) pending) := by
    obtain rfl | ⟨A,z,rfl⟩ := A.eq_nil_or_concat'
    · exact .nil
    obtain ⟨hcha,-,hlink⟩ := isChain_append.mp hA
    have hz : ∀ a ∈ A, setLink next (A ++ [z]).getLast? (next x) a = next a := fun a ha =>
      setLink_of_ne (by simpa using Ne.symm ((nodup_append.mp hnA).2.2 a ha z (by simp)))
    refine isChain_append.mpr ⟨?_,.singleton z,?_⟩
    · exact hcha.imp_of_mem_imp fun _ _ ha _ hf => hf.congr (hz _ ha) fun _ => Iff.rfl
    · exact fun a ha b hb => (hlink a ha b hb).congr (hz a (mem_of_getLast? ha)) fun _ => Iff.rfl
  have hback : BrokenChain (setLink next A.getLast? (next x)) pending B :=
    hB.congr (fun b hb => setLink_of_ne fun hla => hAB b (mem_of_getLast? hla) b hb rfl)
      fun _ _ _ => Iff.rfl
  have hset : ∀ a ∈ A.getLast?, setLink next A.getLast? (next x) a = next x := by
    intro a ha
    have hla : A.getLast? = some a := ha
    simp [hla,setLink]
  cases B with
  | nil =>
    have hnn : next x=none := h.last x (by simp)
    refine ⟨by simpa using hfro,fun a ha => ?_⟩
    rw [append_nil] at ha
    rw [hset a ha,hnn]
  | cons y B =>
    refine ⟨isChain_append.mpr ⟨hfro,hback.follows,?_⟩,?_⟩
    · intro a ha b hb
      obtain rfl : y=b := by simpa using hb
      obtain hf | hf := BrokenChain.split h
      · exact .inl ⟨(hset a ha).trans hf.1,hf.2⟩
      · simp [hf.1] at hsto
    · exact fun a ha => hback.last a (by simpa [List.getLast?_append] using ha)

omit [DecidableEq α] in
theorem BrokenChain.path (h : BrokenChain next pending l) (hnn : ∀ y ∈ l, ∀ t, ¬ pending y t) :
    Path next l.head? l := by
  induction l with
  | nil => rfl
  | cons x l ih =>
    refine ⟨rfl,?_⟩
    cases l with
    | nil => exact h.last x (by simp)
    | cons y l =>
      obtain ⟨hf,hcha⟩ := isChain_cons_cons.mp h.follows
      have hrs := ih ⟨hcha,fun a ha => h.last a (by simpa using ha)⟩
        fun z hz => hnn z (by simp [hz])
      obtain hf | hf := hf
      · rwa [hf.1]
      · exact absurd ((hf.2 _).mpr rfl) (hnn y (by simp) _)

omit [DecidableEq α] in
theorem Path.congr (h : Path next first l) (hnx : ∀ x ∈ l, next' x = next x) : Path next' first l := by
  induction l generalizing first with
  | nil => exact h
  | cons x l ih =>
    refine ⟨h.1,?_⟩
    rw [hnx x (by simp)]
    exact ih h.2 fun y hy => hnx y (by simp [hy])

omit [DecidableEq α] in
theorem path_range (f : ℕ → α) {n : ℕ} (h : ∀ i<n, next (f i) = some (f (i+1)))
    (hla : next (f n) = none) :
    Path next (next (f 0)) ((List.range n).map fun i => f (i+1)) := by
  induction n generalizing f with
  | zero => exact hla
  | succ n ih =>
    rw [range_succ_eq_map,map_cons,List.map_map]
    exact ⟨h 0 (Nat.zero_lt_succ n),ih (fun i => f (i+1)) (fun i hi => h (i+1) (by omega)) hla⟩

/-- The elements met from a first one, at most `n` of them. -/
def follow (next : α → Option α) : ℕ → Option α → List α
  | n + 1, some x => x :: follow next n (next x)
  | _, _ => []

omit [DecidableEq α] in
theorem Path.follow (h : Path next first l) {n : ℕ} (hn : l.length≤n) : Math.follow next n first = l := by
  induction l generalizing first n with
  | nil =>
    obtain rfl : first=none := h
    cases n <;> rfl
  | cons x l ih =>
    obtain ⟨rfl,hl⟩ := h
    cases n with
    | zero => simp at hn
    | succ n => rw [Math.follow,ih hl (by simpa using hn)]

theorem Path.push (h : Path next first l) (hx : x ∉ l) : Path (update next x first) (some x) (x :: l) := by
  refine ⟨rfl,?_⟩
  rw [update_self]
  apply h.congr
  intro y hy
  apply update_of_ne
  rintro rfl
  exact hx hy

end BrokenChain

end PAMI.Math
