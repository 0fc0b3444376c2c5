import Mathlib.Tactic.Ring
import PAMI.Memory.MemoryManager

namespace PAMI.Memory

open Function MemoryManagerAlloc List

theorem metaStart_succ (x : ℕ) : metaStart (x+1) = metaStart x+metaNum x := by
  simp [metaStart,range_succ]

theorem metaStart_mono {x y : ℕ} (h : x≤y) : metaStart x ≤ metaStart y := by
  induction h with
  | refl => exact le_rfl
  | step _ ih => rw [metaStart_succ]; omega

theorem flatMap_blocks (x : ℕ) :
    ((List.range x).flatMap fun x => List.range' (metaStart x) (metaNum x)) = List.range (metaStart x) := by
  induction x with
  | zero => rfl
  | succ x ih =>
    rw [range_succ,flatMap_append,ih,metaStart_succ,range_eq_range',range_eq_range',← range'_append_1]
    simp

theorem takeWhile_lt (a : ℕ → Bool) (k n : ℕ) (hk : k≤n) (ha : ∀ x, a x = decide (x<k)) :
    (List.range n).takeWhile a = List.range k := by
  obtain ⟨d,rfl⟩ := Nat.exists_eq_add_of_le hk
  have h1 : ∀ x ∈ List.range k, a x=true := fun x hx => by simpa [ha] using hx
  have h2 : List.range (k+d) = List.range k ++ List.range' k d := by
    rw [range_eq_range',range_eq_range',← range'_append_1]; simp
  rw [h2,takeWhile_append_of_pos h1]
  cases d with
  | zero => simp
  | succ d => simp [range'_succ,ha]

namespace Area

variable {ι : Type*} [DecidableEq ι] (s : Area ι) (p q : ι) (z : ℕ)

@[simp] theorem setProc_metas (c : Process) : (s.setProc p c).metas=s.metas := rfl
@[simp] theorem setProc_offset (c : Process) : (s.setProc p c).offset=s.offset := rfl
@[simp] theorem setProc_nmetas (c : Process) : (s.setProc p c).nmetas=s.nmetas := rfl
@[simp] theorem setProc_procs (c : Process) :
    (s.setProc p c).procs = update s.procs p c := rfl
omit [DecidableEq ι] in
@[simp] theorem setAlloc_metas (m : MemoryManagerAlloc) :
    (s.setAlloc z m).metas = update s.metas z m := rfl
omit [DecidableEq ι] in
@[simp] theorem setAlloc_offset (m : MemoryManagerAlloc) : (s.setAlloc z m).offset=s.offset := rfl
omit [DecidableEq ι] in
@[simp] theorem setAlloc_nmetas (m : MemoryManagerAlloc) : (s.setAlloc z m).nmetas=s.nmetas := rfl
omit [DecidableEq ι] in
@[simp] theorem setAlloc_procs (m : MemoryManagerAlloc) : (s.setAlloc z m).procs=s.procs := rfl

def Mapped : Prop := ∃ k ≤ s.nmetas, ∀ x, (s.procs p).attached x = decide (x < k)

/-- The process can see entry `z`. -/
def Sees : Prop := ∃ x, (s.procs p).attached x = true ∧ z < metaStart (x + 1)

/-- A process has done nothing but map further blocks of meta-data. -/
structure Extends (metaAlloc : ℕ → Bool) (t : Area ι) : Prop where
  metas : t.metas = s.metas
  offset : t.offset = s.offset
  nmetas : s.nmetas ≤ t.nmetas
  other : ∀ q, q ≠ p → t.procs q = s.procs q
  marks : (t.procs p).marks = (s.procs p).marks
  lastZ : (t.procs p).lastZ = (s.procs p).lastZ
  attached : ∀ x, (s.procs p).attached x = true → (t.procs p).attached x = true
  maps : ∀ x, (t.procs p).attached x = true → (s.procs p).attached x = true ∨ metaAlloc x = true

variable {s p q z} {t u : Area ι} {metaAlloc : ℕ → Bool}

omit [DecidableEq ι] in
theorem Extends.refl : s.Extends p metaAlloc s :=
  ⟨rfl,rfl,le_rfl,fun _ _ => rfl,rfl,rfl,fun _ h => h,fun _ => Or.inl⟩

section

variable (h : s.Extends p metaAlloc t)
include h

omit [DecidableEq ι] in
theorem Extends.trans (h' : t.Extends p metaAlloc u) : s.Extends p metaAlloc u where
  metas := h'.metas.trans h.metas
  offset := h'.offset.trans h.offset
  nmetas := h.nmetas.trans h'.nmetas
  other q hq := (h'.other q hq).trans (h.other q hq)
  marks := h'.marks.trans h.marks
  lastZ := h'.lastZ.trans h.lastZ
  attached x hx := h'.attached x (h.attached x hx)
  maps x hx := (h'.maps x hx).elim (h.maps x) Or.inr

theorem Extends.marks_eq (q : ι) : (t.procs q).marks=(s.procs q).marks := by
  by_cases hq : q=p
  · subst hq; exact h.marks
  · rw [h.other q hq]

theorem Extends.lastZ_eq (q : ι) : (t.procs q).lastZ=(s.procs q).lastZ := by
  by_cases hq : q=p
  · subst hq; exact h.lastZ
  · rw [h.other q hq]

theorem Extends.mapped (hp : t.Mapped p) (hq : s.Mapped q) : t.Mapped q := by
  by_cases hqp : q=p
  · subst hqp; exact hp
  · obtain ⟨k,hk,ha⟩ := hq
    exact ⟨k,hk.trans h.nmetas,by rw [h.other q hqp]; exact ha⟩

theorem Extends.sees (hz : s.Sees q z) : t.Sees q z := by
  obtain ⟨x,hx,hz⟩ := hz
  refine ⟨x,?_,hz⟩
  by_cases hq : q=p
  · subst hq; exact h.attached x hx
  · rwa [h.other q hq]

end

omit [DecidableEq ι] in
theorem Mapped.visible (h : s.Mapped p) :
    ∃ k ≤ s.nmetas, (∀ x, (s.procs p).attached x = decide (x<k)) ∧ s.visible p = List.range (metaStart k) := by
  obtain ⟨k,hk,ha⟩ := h
  exact ⟨k,hk,ha,by rw [Area.visible,takeWhile_lt _ _ _ hk ha,flatMap_blocks]⟩

omit [DecidableEq ι] in
theorem Mapped.mem_visible (h : s.Mapped p) : z ∈ s.visible p ↔ s.Sees p z := by
  obtain ⟨k,-,ha,hv⟩ := h.visible
  rw [hv,mem_range]
  constructor
  · intro hz
    cases k with
    | zero => simp [metaStart] at hz
    | succ k => exact ⟨k,by simp [ha],hz⟩
  · rintro ⟨x,hx,hz⟩
    have : x<k := by simpa [ha] using hx
    exact hz.trans_le (metaStart_mono this)

omit [DecidableEq ι] in
theorem Mapped.visible_nodup (h : s.Mapped p) : (s.visible p).Nodup := by
  obtain ⟨k,-,-,hv⟩ := h.visible
  rw [hv]
  exact nodup_range

theorem getMeta_spec (metaAlloc : ℕ → Bool) {x : ℕ} (hp : s.Mapped p)
    (hx : ∀ y<x, (s.procs p).attached y = true) :
    match s.getMeta metaAlloc p x with
    | none => metaAlloc x=false ∧ (s.procs p).attached x=false
    | some t => s.Extends p metaAlloc t ∧ t.Mapped p ∧ (t.procs p).attached x=true ∧ x<t.nmetas ∧
        (t.nmetas ≤ s.nmetas ∨ t.nmetas=x+1) := by
  obtain ⟨k,hk,ha⟩ := hp
  have hkx : x≤k := by
    by_contra hc
    have := hx k (by omega)
    simp [ha] at this
  unfold getMeta
  by_cases h1 : (s.procs p).attached x=true
  · rw [if_pos h1]
    have hxk : x<k := by simpa [ha] using h1
    exact ⟨Extends.refl,⟨k,hk,ha⟩,h1,by omega,Or.inl le_rfl⟩
  · rw [if_neg h1]
    cases hm : metaAlloc x with
    | false => exact ⟨rfl,by simpa using h1⟩
    | true =>
      have hxk : x=k := by
        have : ¬x<k := by simpa [ha] using h1
        omega
      subst hxk
      refine ⟨⟨rfl,rfl,?_,?_,?_,?_,?_,?_⟩,⟨x+1,?_,?_⟩,?_,?_,?_⟩
      · simp only; split <;> omega
      · intro q hq; simp [hq]
      · simp
      · simp
      · intro y hy
        by_cases hyx : y=x
        · simp [hyx]
        · simpa [hyx] using hy
      · intro y hy
        by_cases hyx : y=x
        · subst hyx; exact Or.inr hm
        · exact Or.inl (by simpa [hyx] using hy)
      · simp only; split <;> omega
      · intro y
        by_cases hyx : y=x
        · simp [hyx]
        · simp only [setProc_procs,update_self,update_of_ne hyx,ha]
          simp only [decide_eq_decide]; omega
      · simp
      · simp only; split <;> omega
      · simp only; split <;> omega

/-- What `locate` finds in the first `n` blocks with a test of the caller. -/
structure Located (metaAlloc : ℕ → Bool) (p : ι) (test : MemoryManagerAlloc → Bool) (n : ℕ)
    (s t : Area ι) (o : Option ℕ) : Prop where
  keeps : s.Extends p metaAlloc t
  mapped : t.Mapped p
  grown : t.nmetas ≤ s.nmetas ∨
    ∃ x < n, t.nmetas = x + 1 ∧ ∀ z < metaStart x, test (s.metas z) = false
  hit : ∀ z, o = some z → test (s.metas z) = true ∧ (∀ y < z, test (s.metas y) = false) ∧
    ∃ x < n, (t.procs p).attached x = true ∧ z < metaStart (x + 1)
  miss : o = none → (∀ z < metaStart n, test (s.metas z) = false) ∨
    ∃ x < n, metaAlloc x = false ∧ (t.procs p).attached x = false ∧ ∀ z < metaStart x, test (s.metas z) = false

theorem locate_spec (metaAlloc : ℕ → Bool) (test : MemoryManagerAlloc → Bool) (d a : ℕ)
    (hp : s.Mapped p) (ha : ∀ x<a, (s.procs p).attached x = true)
    (ht : ∀ z < metaStart a, test (s.metas z) = false) :
    Located metaAlloc p test (a+d) s (s.locate metaAlloc p test (List.range' a d)).1
      (s.locate metaAlloc p test (List.range' a d)).2 := by
  induction d generalizing a s with
  | zero => exact ⟨Extends.refl,hp,Or.inl le_rfl,fun z h => (by cases h),fun _ => Or.inl ht⟩
  | succ d ih =>
    have hg := getMeta_spec metaAlloc hp ha
    rw [range'_succ,locate]
    cases hm : s.getMeta metaAlloc p a with
    | none =>
      rw [hm] at hg
      refine ⟨Extends.refl,hp,Or.inl le_rfl,fun z h => (by cases h),fun _ => Or.inr ?_⟩
      exact ⟨a,by omega,hg.1,hg.2,ht⟩
    | some t =>
      rw [hm] at hg
      obtain ⟨he,hpt,hat,han,hgr⟩ := hg
      have grown : t.nmetas ≤ s.nmetas ∨
          ∃ x<a+(d+1), t.nmetas=x+1 ∧ ∀ z < metaStart x, test (s.metas z)=false := by
        rcases hgr with h | h
        · exact Or.inl h
        · exact Or.inr ⟨a,by omega,h,ht⟩
      simp only
      cases hf : (List.range' (metaStart a) (metaNum a)).find? fun z => test (t.metas z) with
      | some z =>
        simp only
        refine ⟨he,hpt,grown,?_,fun h => (by cases h)⟩
        rintro _ ⟨rfl⟩
        obtain ⟨htz,hz,hlt⟩ := List.find?_range'_eq_some.1 hf
        rw [he.metas] at htz hlt
        have hz' := mem_range'_1.1 hz
        refine ⟨htz,?_,a,by omega,hat,?_⟩
        · intro y hy
          by_cases hya : y < metaStart a
          · exact ht y hya
          · simpa using hlt y (by omega) hy
        · rw [metaStart_succ]; exact hz'.2
      | none =>
        simp only
        have hall : ∀ z < metaStart (a+1), test (t.metas z)=false := by
          intro z hz
          rw [metaStart_succ] at hz
          by_cases hza : z < metaStart a
          · rw [he.metas]; exact ht z hza
          · have := List.find?_eq_none.1 hf z (mem_range'_1.2 ⟨by omega,hz⟩)
            simpa using this
        have hl := ih (s := t) (a+1) hpt (by
          intro x hx
          by_cases hxa : x=a
          · subst hxa; exact hat
          · exact he.attached x (ha x (by omega))) hall
        rw [he.metas] at hall
        have hn : a+1+d=a+(d+1) := by omega
        rw [hn] at hl
        refine ⟨he.trans hl.keeps,hl.mapped,?_,?_,?_⟩
        · rcases hl.grown with h | ⟨x,hx,h,hz⟩
          · rcases grown with h' | ⟨x,hx,h',hz⟩
            · exact Or.inl (h.trans h')
            · have := hl.keeps.nmetas
              exact Or.inr ⟨x,hx,by omega,hz⟩
          · rw [he.metas] at hz
            exact Or.inr ⟨x,hx,h,hz⟩
        · have := hl.hit
          rwa [he.metas] at this
        · have := hl.miss
          rwa [he.metas] at this

theorem locate_range (metaAlloc : ℕ → Bool) (test : MemoryManagerAlloc → Bool) (n : ℕ)
    (hp : s.Mapped p) :
    Located metaAlloc p test n s (s.locate metaAlloc p test (List.range n)).1
      (s.locate metaAlloc p test (List.range n)).2 := by
  have h := locate_spec metaAlloc test n 0 hp (fun x hx => absurd hx (by omega))
    (fun z hz => absurd hz (by simp [metaStart]))
  rwa [Nat.zero_add,← range_eq_range'] at h

/-- The area after a lookup that found entry `z`. -/
def found (s : Area ι) (p : ι) (z : ℕ) : Area ι := ((s.setProc p { s.procs p with lastZ := z }).addRef z).mark p z

/-- The area after an allocation in entry `z`, with the new end of the space in use. -/
def granted (s : Area ι) (p : ι) (z : ℕ) (m : MemoryManagerAlloc) (off : Size) : Area ι :=
  { (s.setAlloc z m).mark p z with offset := off }

section Effects

variable (s : Area ι) (p : ι) (z : ℕ) (m : MemoryManagerAlloc) (off : Size)

@[simp] theorem found_offset : (s.found p z).offset=s.offset := rfl
@[simp] theorem found_nmetas : (s.found p z).nmetas=s.nmetas := rfl
@[simp] theorem found_metas : (s.found p z).metas =
    update s.metas z { s.metas z with refCount := (s.metas z).refCount+1 } := rfl
@[simp] theorem granted_offset : (s.granted p z m off).offset=off := rfl
@[simp] theorem granted_nmetas : (s.granted p z m off).nmetas=s.nmetas := rfl
@[simp] theorem granted_metas : (s.granted p z m off).metas = update s.metas z m := rfl

theorem found_procs : (s.found p z).procs = update s.procs p
    { s.procs p with lastZ := z, marks := update (s.procs p).marks z true } := by
  simp [found,mark,addRef]

theorem granted_procs : (s.granted p z m off).procs = update s.procs p
    { s.procs p with marks := update (s.procs p).marks z true } := rfl

@[simp] theorem found_attached (q : ι) :
    ((s.found p z).procs q).attached=(s.procs q).attached := by
  rw [found_procs]
  by_cases hq : q=p
  · subst hq; simp
  · simp [hq]

@[simp] theorem granted_attached (q : ι) :
    ((s.granted p z m off).procs q).attached=(s.procs q).attached := by
  rw [granted_procs]
  by_cases hq : q=p
  · subst hq; simp
  · simp [hq]

end Effects

/-- Key `k` is not among the entries that a lookup of `p` compares: it compares those of all blocks,
or those before a block that `p` cannot map. -/
def Absent (s : Area ι) (metaAlloc : ℕ → Bool) (p : ι) (k : Key) : Prop :=
  (∀ z < metaStart s.nmetas, (s.metas z).key ≠ k) ∨
    ∃ x < s.nmetas, metaAlloc x = false ∧ (s.procs p).attached x = false ∧ ∀ z < metaStart x, (s.metas z).key ≠ k

theorem key_test {m : MemoryManagerAlloc} {k : Key} (hk : k ≠ []) :
    (!m.isFree && m.key == k)=true ↔ m.key=k := by
  have : m.key=k → m.key ≠ [] := fun h => h ▸ hk
  simpa [isFree] using this

theorem find_spec (metaAlloc : ℕ → Bool) {k : Key} (hk : k ≠ []) (hp : s.Mapped p) :
    match s.find metaAlloc p k with
    | (t, none) => s.Extends p metaAlloc t ∧ t.Mapped p ∧ t.nmetas=s.nmetas ∧
        s.Absent metaAlloc p k
    | (u, some z) => ∃ t, s.Extends p metaAlloc t ∧ t.Mapped p ∧ t.nmetas=s.nmetas ∧
        u=t.found p z ∧ (s.metas z).key=k ∧ (∀ y<z, (s.metas y).key≠k) ∧ t.Sees p z := by
  have h := locate_range metaAlloc (fun m => !m.isFree && m.key == k) s.nmetas hp
  have hfal : ∀ m : MemoryManagerAlloc, (!m.isFree && m.key == k)=false → m.key≠k := by
    intro m hm he
    rw [(key_test hk).2 he] at hm
    cases hm
  unfold find
  generalize s.locate metaAlloc p (fun m => !m.isFree && m.key == k) (List.range s.nmetas)=l at h
  obtain ⟨t,o⟩ := l
  have hn : t.nmetas=s.nmetas := by
    have := h.keeps.nmetas
    rcases h.grown with h | ⟨x,hx,h,-⟩ <;> simp only at * <;> omega
  cases o with
  | none =>
    refine ⟨h.keeps,h.mapped,hn,?_⟩
    rcases h.miss rfl with hz | ⟨x,hx,hm,ha,hz⟩
    · exact Or.inl fun z hl => hfal _ (hz z hl)
    · refine Or.inr ⟨x,hx,hm,?_,fun z hl => hfal _ (hz z hl)⟩
      cases hs : (s.procs p).attached x with
      | false => rfl
      | true => exact absurd ((h.keeps.attached x hs).symm.trans ha) (by decide)
  | some z =>
    obtain ⟨hz,hlt,x,hx,ha,hzx⟩ := h.hit z rfl
    exact ⟨t,h.keeps,h.mapped,hn,rfl,(key_test hk).1 hz,fun y hy => hfal _ (hlt y hy),x,ha,hzx⟩

/-- The meta-data of a new allocation in the space behind the others. -/
def newAlloc (s : Area ι) (r : Region ι) (p : ι) (len aln : Size) (key : Key) (refs : ℤ) :
    MemoryManagerAlloc where
  key := key
  refCount := refs
  offset := getPadding (r.base p) s.offset aln
  userSize := len
  rawSize := len + (getPadding (r.base p) s.offset aln - s.offset)

def Grown (s t : Area ι) : Prop := t.nmetas ≤ s.nmetas ∨
    ∃ x < MMMAX_N_META, t.nmetas = x + 1 ∧ ∀ z < metaStart x, (s.metas z).key ≠ []

structure FirstFree (s : Area ι) (p : ι) (z : ℕ) : Prop where
  free : (s.metas z).key = []
  least : ∀ y < z, (s.metas y).key ≠ []
  sees : ∃ x < MMMAX_N_META, (s.procs p).attached x = true ∧ z < metaStart (x + 1)

theorem findFree_spec (r : Region ι) (metaAlloc : ℕ → Bool) (len aln : Size) (key : ℕ → Key)
    (hp : s.Mapped p) :
    match s.findFree r metaAlloc p len aln key with
    | (u, none) => ∃ t, s.Extends p metaAlloc t ∧ t.Mapped p ∧ s.Grown t ∧
        (u=t ∨ ∃ z, t.FirstFree p z ∧ r.size<getPadding (r.base p) s.offset aln+len ∧
          u=t.setAlloc z (s.newAlloc r p len aln [] (s.metas z).refCount))
    | (u, some z) => ∃ t, s.Extends p metaAlloc t ∧ t.Mapped p ∧ s.Grown t ∧ t.FirstFree p z ∧
        getPadding (r.base p) s.offset aln+len ≤ r.size ∧
        u=t.granted p z (s.newAlloc r p len aln (key z) ((s.metas z).refCount+1))
          (getPadding (r.base p) s.offset aln+len) := by
  have h := locate_range metaAlloc isFree MMMAX_N_META hp
  have htrue : ∀ m : MemoryManagerAlloc, m.isFree=true ↔ m.key = [] := by simp [isFree]
  have hfal : ∀ m : MemoryManagerAlloc, m.isFree=false → m.key ≠ [] := by simp [isFree]
  unfold findFree
  generalize s.locate metaAlloc p isFree (List.range MMMAX_N_META)=l at h
  obtain ⟨t,o⟩ := l
  have hg : s.Grown t := by
    rcases h.grown with hg | ⟨x,hx,hn,hz⟩
    · exact Or.inl hg
    · exact Or.inr ⟨x,hx,hn,fun z hl => hfal _ (hz z hl)⟩
  cases o with
  | none => exact ⟨t,h.keeps,h.mapped,hg,Or.inl rfl⟩
  | some z =>
    obtain ⟨hz,hlt,x,hx,ha,hzx⟩ := h.hit z rfl
    have hm := h.keeps.metas
    have hff : t.FirstFree p z := ⟨by rw [← htrue]; rwa [← hm] at hz,fun y hy => by
        rw [show t.metas=s.metas from hm]; exact hfal _ (hlt y hy),x,hx,ha,hzx⟩
    have hm' : t.metas z = s.metas z := congrFun hm z
    by_cases hrm : r.size<getPadding (r.base p) s.offset aln+len
    · simp only [if_pos hrm]
      refine ⟨t,h.keeps,h.mapped,hg,Or.inr ⟨z,hff,hrm,?_⟩⟩
      rw [newAlloc,hm',(htrue _).1 hz]
    · simp only [if_neg hrm]
      refine ⟨t,h.keeps,h.mapped,hg,hff,by simpa using hrm,?_⟩
      simp [granted,addRef,mark,setAlloc,newAlloc,setProc,hm']

/-- The alignment of an allocation: at least that of the manager. -/
def alignTo (r : Region ι) (p : ι) (alignment : Size) : Size :=
  if alignment < r.alignment p then r.alignment p else alignment

/-- What a call of `memalign` did. -/
inductive Served (r : Region ι) (metaAlloc : ℕ → Bool) (p : ι) (memptr : ℕ)
    (alignment bytes : Size) (key : Option Key) (s : Area ι) : Area ι × Result → Prop
  | inval (k : Key) (hk : key = some k) (hl : MMKEYSIZE ≤ k.length) :
      Served r metaAlloc p memptr alignment bytes key s (s, .INVAL)
  | found (k : Key) (t : Area ι) (z : ℕ) (hk : key = some k) (hne : k ≠ [])
      (he : s.Extends p metaAlloc t) (hp : t.Mapped p) (hn : t.nmetas = s.nmetas)
      (hz : (s.metas z).key = k) (hlt : ∀ y < z, (s.metas y).key ≠ k) (hs : t.Sees p z) :
      Served r metaAlloc p memptr alignment bytes key s
        (t.found p z, .SUCCESS (r.base p + (s.metas z).offset) z true)
  | full (t : Area ι) (he : s.Extends p metaAlloc t) (hp : t.Mapped p) (hg : s.Grown t) :
      Served r metaAlloc p memptr alignment bytes key s (t, .ERROR)
  | room (t : Area ι) (z : ℕ) (m : MemoryManagerAlloc) (he : s.Extends p metaAlloc t)
      (hp : t.Mapped p) (hg : s.Grown t) (hf : t.FirstFree p z) (hm : m.key = [])
      (hr : m.refCount = (s.metas z).refCount) :
      Served r metaAlloc p memptr alignment bytes key s (t.setAlloc z m, .ERROR)
  | fresh (t : Area ι) (z : ℕ) (k : Key) (he : s.Extends p metaAlloc t) (hp : t.Mapped p)
      (hg : s.Grown t) (hf : t.FirstFree p z)
      (hk : key.getD [] = [] ∧ k = (if key = none then privateKey r p z else chosenKey r p memptr) ∨
        key = some k ∧ k ≠ [] ∧ s.Absent metaAlloc p k)
      (hrm : getPadding (r.base p) s.offset (alignTo r p alignment) + bytes ≤ r.size) :
      Served r metaAlloc p memptr alignment bytes key s
        (t.granted p z (s.newAlloc r p bytes (alignTo r p alignment) k ((s.metas z).refCount + 1))
          (getPadding (r.base p) s.offset (alignTo r p alignment) + bytes),
        .SUCCESS (r.base p + getPadding (r.base p) s.offset (alignTo r p alignment)) z false)

theorem allocate_served {r : Region ι} {memptr : ℕ} {alignment bytes : Size} {o : Option Key}
    {key : ℕ → Key} (he : s.Extends p metaAlloc t) (hn : t.nmetas=s.nmetas) (hp : t.Mapped p)
    (hk : ∀ z, o.getD [] = [] ∧ key z = (if o=none then privateKey r p z else chosenKey r p memptr) ∨
      o = some (key z) ∧ key z ≠ [] ∧ s.Absent metaAlloc p (key z)) :
    Served r metaAlloc p memptr alignment bytes o s
      (t.allocate r metaAlloc p (alignTo r p alignment) bytes key) := by
  have h := findFree_spec r metaAlloc bytes (alignTo r p alignment) key hp
  have hnew : ∀ k n, t.newAlloc r p bytes (alignTo r p alignment) k n =
      s.newAlloc r p bytes (alignTo r p alignment) k n := fun k n => by
    simp only [newAlloc,he.offset]
  have grown : ∀ {u : Area ι}, t.Grown u → s.Grown u := fun {u} hg => by rw [Grown,hn,he.metas] at hg; exact hg
  unfold allocate
  generalize t.findFree r metaAlloc p bytes (alignTo r p alignment) key=l at h
  obtain ⟨u,o⟩ := l
  cases o with
  | none =>
    obtain ⟨v,hv,hvp,hg,rfl | ⟨z,hf,-,rfl⟩⟩ := h
    · exact Served.full _ (he.trans hv) hvp (grown hg)
    · refine Served.room v z _ (he.trans hv) hvp (grown hg) hf rfl ?_
      rw [newAlloc,he.metas]
  | some z =>
    obtain ⟨v,hv,hvp,hg,hf,hrm,rfl⟩ := h
    rw [he.offset] at hrm
    have hmem : ((v.granted p z (t.newAlloc r p bytes (alignTo r p alignment) (key z)
        ((t.metas z).refCount+1)) (getPadding (r.base p) t.offset (alignTo r p alignment) +
          bytes)).metas z).offset=getPadding (r.base p) s.offset (alignTo r p alignment) := by
      simp [newAlloc,he.offset]
    simp only [hmem]
    rw [hnew,he.offset,he.metas]
    exact Served.fresh v z (key z) (he.trans hv) hvp (grown hg) hf (hk z) hrm

theorem memalign_served (r : Region ι) (metaAlloc : ℕ → Bool) (memptr : ℕ) (alignment bytes : Size)
    (key : Option Key) (hp : s.Mapped p) :
    Served r metaAlloc p memptr alignment bytes key s
      (s.memalign r metaAlloc p memptr alignment bytes key) := by
  unfold memalign
  rw [← alignTo]
  match key with
  | none => exact allocate_served Extends.refl rfl hp fun z => Or.inl ⟨rfl,rfl⟩
  | some [] => exact allocate_served Extends.refl rfl hp fun z => Or.inl ⟨rfl,rfl⟩
  | some (c :: cs) =>
    by_cases hl : MMKEYSIZE≤(c :: cs).length
    · simp only [if_pos hl]
      exact Served.inval _ rfl hl
    · simp only [if_neg hl]
      have h := find_spec metaAlloc (cons_ne_nil c cs) hp
      generalize s.find metaAlloc p (c :: cs)=l at h
      obtain ⟨t,o⟩ := l
      cases o with
      | none =>
        obtain ⟨he,ht,hn,hab⟩ := h
        exact allocate_served he hn ht fun z => Or.inr ⟨rfl,cons_ne_nil c cs,hab⟩
      | some z =>
        obtain ⟨u,he,hu,hn,rfl,hz,hlt,hs⟩ := h
        have hmem : ((u.found p z).metas z).offset=(s.metas z).offset := by simp [he.metas]
        simp only [hmem]
        exact Served.found _ u z rfl (cons_ne_nil c cs) he hu hn hz hlt hs

end Area

end PAMI.Memory
