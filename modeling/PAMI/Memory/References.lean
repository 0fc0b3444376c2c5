import PAMI.Memory.Shared

namespace PAMI.Memory

open Area Shared

variable {ι : Type*} [DecidableEq ι]

variable [Fintype ι] {r : Region ι} {sh : Shared ι} {p : ι}

omit [Fintype ι] in
theorem addHeld_pos (held : ι → ℕ → ℕ) (p q : ι) (z y : ℕ) :
    0 < addHeld held p z q y ↔ q=p ∧ y=z ∨ 0 < held q y := by
  by_cases hq : q=p
  · subst hq
    by_cases hy : y=z
    · subst hy; simp [addHeld]
    · simp [addHeld,hy]
  · simp [addHeld,hq]

section

variable {m : ℕ → Bool} {t : Area ι} (h : Inv r sh) (he : sh.area.Extends p m t) (hp : t.Mapped p)
include h he hp

theorem Inv.keep {u : Area ι} (hn : u.nmetas=t.nmetas) (hpr : u.procs=t.procs) (ho : u.offset=t.offset)
    (hk : ∀ z, (u.metas z).key=(sh.area.metas z).key ∧ (u.metas z).refCount=(sh.area.metas z).refCount)
    (hb : ∀ z, (sh.area.metas z).key ≠ [] → u.block z = sh.area.block z) : Inv r ⟨u,sh.held⟩ where
  refCount z := by rw [← h.refCount,← (hk z).2]
  live z := by simp only [(hk z).1,(hk z).2]; exact h.live z
  marks q z := by simp only [hpr,he.marks_eq]; exact h.marks q z
  disjoint y z hy hz := by
    simp only [(hk _).1] at hy hz
    simp only [hb y hy,hb z hz]
    exact h.disjoint y z hy hz
  used z hz := by
    simp only [(hk _).1] at hz
    simp only [hb z hz,ho,he.offset]
    exact h.used z hz
  mapped q := by
    obtain ⟨k,hk,ha⟩ := he.mapped hp (h.mapped q)
    exact ⟨k,by rwa [hn],by rwa [hpr]⟩
  sees q z hz := by
    simp only [hpr,he.marks_eq] at hz
    obtain ⟨x,hx,hz⟩ := he.sees (h.sees q z hz)
    exact ⟨x,by rwa [hpr],hz⟩
  inside := by simp only [ho,he.offset]; exact h.inside

omit [Fintype ι] h he hp in
theorem marks_found (t : Area ι) (q : ι) (z y : ℕ) :
    ((t.found p z).procs q).marks y = true ↔ q=p ∧ y=z ∨ (t.procs q).marks y = true := by
  rw [found_procs]
  by_cases hq : q=p
  · subst hq
    by_cases hy : y=z
    · subst hy; simp
    · simp [hy]
  · simp [hq]

omit [Fintype ι] h he hp in
theorem marks_granted (t : Area ι) (q : ι) (z y : ℕ) (m : MemoryManagerAlloc) (off : Size) :
    ((t.granted p z m off).procs q).marks y = true ↔ q=p ∧ y=z ∨ (t.procs q).marks y = true := by
  rw [granted_procs]
  by_cases hq : q=p
  · subst hq
    by_cases hy : y=z
    · subst hy; simp
    · simp [hy]
  · simp [hq]

theorem Inv.lookup {z : ℕ} (hz : (sh.area.metas z).key ≠ []) (hs : t.Sees p z) :
    Inv r ⟨t.found p z,addHeld sh.held p z⟩ := by
  have hb := h.keep he hp rfl rfl rfl (fun y => by rw [he.metas]; exact ⟨rfl,rfl⟩)
    fun y _ => by rw [Area.block,Area.block,he.metas]
  have hkey : ∀ y, ((t.found p z).metas y).key=(sh.area.metas y).key := by
    intro y
    by_cases hy : y=z
    · subst hy; simp [he.metas]
    · simp [hy,he.metas]
  have hblo : ∀ y, (t.found p z).block y = sh.area.block y := by
    intro y
    by_cases hy : y=z
    · subst hy; simp [Area.block,he.metas]
    · simp [Area.block,hy,he.metas]
  have href : ∀ y, ((t.found p z).metas y).refCount=(sh.area.metas y).refCount+if y=z then 1 else 0 := by
    intro y
    by_cases hy : y=z
    · subst hy; simp [he.metas]
    · simp [hy,he.metas]
  refine
    { refCount := fun y => ?_, live := fun y => ?_, marks := fun q y => ?_,
      disjoint := fun x y hx hy hxy => ?_, used := fun y hy => ?_, mapped := fun q => ?_,
      sees := fun q y hy => ?_, inside := hb.inside }
  · simp only [href]
    rw [sum_addHeld,h.refCount]
  · simp only [href,hkey]
    rw [h.live]
    have := (h.live z).1 hz
    by_cases hy : y=z
    · subst hy; simp; omega
    · simp [hy]
  · simp only [marks_found,addHeld_pos]
    exact or_congr_right (hb.marks q y)
  · simp only [hkey] at hx hy
    simp only [hblo]
    exact h.disjoint x y hx hy hxy
  · simp only [hkey] at hy
    simp only [hblo,found_offset,he.offset]
    exact h.used y hy
  · obtain ⟨k,hk,ha⟩ := hb.mapped q
    exact ⟨k,hk,by rwa [found_attached]⟩
  · simp only [marks_found] at hy
    simp only [Sees,found_attached]
    rcases hy with ⟨rfl,rfl⟩ | hy
    · exact hs
    · exact hb.sees q y hy

theorem Inv.allocate {z : ℕ} {k : Key} {alignment bytes off : Size} {a : MemoryManagerAlloc}
    (hf : t.FirstFree p z) (hne : k ≠ [])
    (ha : a = ⟨k,(sh.area.metas z).refCount+1,off,bytes,a.rawSize⟩)
    (hs : SpaceAt r p alignment bytes sh.area.offset off) :
    Inv r ⟨t.granted p z a (off+bytes),addHeld sh.held p z⟩ := by
  have hb := h.keep he hp rfl rfl rfl (fun y => by rw [he.metas]; exact ⟨rfl,rfl⟩)
    fun y _ => by rw [Area.block,Area.block,he.metas]
  have hfr : (sh.area.metas z).key = [] := by rw [← he.metas]; exact hf.free
  have hnew : (t.granted p z a (off+bytes)).metas z=a := by simp
  have hold : ∀ y, y≠z → (t.granted p z a (off+bytes)).metas y = sh.area.metas y :=
    fun y hy => by rw [granted_metas,Function.update_of_ne hy,he.metas]
  have hak : a.key=k ∧ a.offset=off ∧ a.userSize=bytes ∧ a.refCount=1 := by
    rw [ha,h.refCount_free hfr]; exact ⟨rfl,rfl,rfl,rfl⟩
  have hblo : ∀ y, y≠z → (t.granted p z a (off+bytes)).block y = sh.area.block y :=
    fun y hy => by rw [Area.block,Area.block,hold y hy]
  have hzbl : (t.granted p z a (off+bytes)).block z = Set.Ico off.toNat (off.toNat+bytes.toNat) := by
    rw [Area.block,hnew,hak.2.1,hak.2.2.1]
  have hapa : ∀ y, y≠z → (sh.area.metas y).key ≠ [] →
      Disjoint (sh.area.block y) (Set.Ico off.toNat (off.toNat+bytes.toNat)) := by
    intro y _ hlive
    rw [Set.disjoint_left]
    intro b hb hb'
    have h1 := h.used y hlive hb
    have h2 := hs.behind
    simp only [Set.mem_Iio,Set.mem_Ico] at h1 hb'
    omega
  refine
    { refCount := fun y => ?_, live := fun y => ?_, marks := fun q y => ?_,
      disjoint := fun x y hx hy hxy => ?_, used := fun y hy => ?_, mapped := fun q => ?_,
      sees := fun q y hy => ?_, inside := ?_ }
  · simp only [sum_addHeld,← h.refCount]
    by_cases hy : y=z
    · subst hy; rw [hnew,hak.2.2.2,h.refCount_free hfr]; simp
    · rw [hold y hy]; simp [hy]
  · by_cases hy : y=z
    · subst hy; rw [hnew,hak.1,hak.2.2.2]; simp [hne]
    · simp only [hold y hy]; exact h.live y
  · simp only [marks_granted,addHeld_pos]
    exact or_congr_right (hb.marks q y)
  · by_cases hxz : x=z
    · subst hxz
      simp only [hold y (Ne.symm hxy)] at hy
      simp only [hzbl,hblo y (Ne.symm hxy)]
      exact (hapa y (Ne.symm hxy) hy).symm
    · simp only [hold x hxz] at hx
      by_cases hyz : y=z
      · subst hyz
        simp only [hzbl,hblo x hxz]
        exact hapa x hxz hx
      · simp only [hold y hyz] at hy
        simp only [hblo x hxz,hblo y hyz]
        exact h.disjoint x y hx hy hxy
  · rw [granted_offset,hs.endAt]
    by_cases hyz : y=z
    · subst hyz
      simp only [hzbl]
      exact fun b hb => hb.2
    · simp only [hold y hyz] at hy
      simp only [hblo y hyz]
      intro b hb
      have h1 := h.used y hy hb
      have h2 := hs.behind
      simp only [Set.mem_Iio] at h1 ⊢
      omega
  · obtain ⟨k,hk,ha⟩ := hb.mapped q
    exact ⟨k,hk,by rwa [granted_attached]⟩
  · simp only [marks_granted] at hy
    simp only [Sees,granted_attached]
    rcases hy with ⟨rfl,rfl⟩ | hy
    · obtain ⟨x,-,hx,hz⟩ := hf.sees
      exact ⟨x,hx,hz⟩
    · exact hb.sees q y hy
  · simp only [granted_offset,hs.endAt]
    exact hs.inside

end

theorem Inv.memalign (h : Inv r sh) (hr : r.Valid) {c : Call ι} (hc : c.Proper) :
    Inv r (step r sh (.memalign c)) ∧ sh.area.offset.toNat≤(step r sh (.memalign c)).area.offset.toNat := by
  have hser := memalign_served r c.metaAlloc c.memptr c.alignment c.bytes c.key (h.mapped c.p)
  simp only [Memory.step,Call.run]
  generalize sh.area.memalign r c.metaAlloc c.p c.memptr c.alignment c.bytes c.key=res at hser
  cases hser with
  | inval k hk hl => exact ⟨h,le_rfl⟩
  | found k t z hk hne he hp hn hz hlt hs =>
    exact ⟨h.lookup he hp (by rwa [hz]) hs,(congrArg BitVec.toNat he.offset).ge⟩
  | full t he hp hg =>
    exact ⟨h.keep he hp rfl rfl rfl (fun y => by rw [he.metas]; exact ⟨rfl,rfl⟩)
      fun y _ => (by rw [Area.block,Area.block,he.metas]),(congrArg BitVec.toNat he.offset).ge⟩
  | room t z m he hp hg hf hm hrefs =>
    have hfr : (sh.area.metas z).key = [] := by rw [← he.metas]; exact hf.free
    refine ⟨h.keep he hp rfl rfl rfl (fun y => ?_) fun y hy => ?_,(congrArg BitVec.toNat he.offset).ge⟩
    · by_cases hy : y=z
      · subst hy; simp [hm,hrefs,hfr]
      · simp [hy,he.metas]
    · have hyz : y≠z := fun e => hy (e ▸ hfr)
      simp [Area.block,hyz,he.metas]
  | fresh t z k he hp hg hf hk hrm =>
    have hsp := spaceAt c.p hr hc.isPow hc.small h.inside hrm
    refine ⟨h.allocate (k := k) he hp hf ?_ rfl hsp,?_⟩
    · rcases hk with ⟨-,hk⟩ | ⟨-,hne,-⟩
      · rw [hk]
        split
        · exact privateKey_ne_nil c.p z
        · exact chosenKey_ne_nil c.p c.memptr
      · exact hne
    · have h1 := hsp.endAt
      have h2 := hsp.behind
      simp only [granted_offset]
      omega

omit [DecidableEq ι] in
theorem Area.Start.inv {s : Area ι} (hs : s.Start) : Inv r (start s) where
  refCount z := by simp [start,hs.refCount]
  live z := by simp [start,hs.free,hs.refCount]
  marks p z := by simp [start,hs.marks]
  disjoint y z hy := absurd (hs.free y) hy
  used z hz := absurd (hs.free z) hz
  mapped p := by
    rcases hs.mapped with ⟨hn,ha⟩ | ⟨hn,ha⟩
    · exact ⟨0,Nat.zero_le _,fun x => by simp [start,ha]⟩
    · exact ⟨MMMAX_N_META,hn.ge,ha p⟩
  sees p z hz := by simp [start,hs.marks] at hz
  inside := by simp [start,hs.offset]

theorem Inv.step (h : Inv r sh) (hr : r.Valid) {op : Op ι} (hf : op.Fine sh) :
    Inv r (step r sh op) ∧ ((Memory.step r sh op).area.offset.toNat < sh.area.offset.toNat →
        ∀ p z, (Memory.step r sh op).held p z = 0) := by
  cases op with
  | memalign c =>
    obtain ⟨h1,h2⟩ := h.memalign hr hf
    exact ⟨h1,fun hlt => by omega⟩
  | free p mem =>
    refine ⟨h.free mem,fun hlt => ?_⟩
    have : (Memory.step r sh (.free p mem)).area.offset=sh.area.offset := by
      simp only [Memory.step,Area.free,findOffset]
      split <;> rfl
    rw [this] at hlt
    omega
  | reset p =>
    refine ⟨h.reset hf,fun hlt => h.reset_offset hf fun he => ?_⟩
    rw [he] at hlt
    omega

theorem Inv.run (h : Inv r sh) (hr : r.Valid) {ops : List (Op ι)} (hf : Fine r ops sh) :
    Inv r (ops.foldl (Memory.step r) sh) := by
  induction ops generalizing sh with
  | nil => exact h
  | cons op ops ih => exact ih (h.step hr hf.1).1 hf.2

/-- In a run whose steps all meet the condition the references are exact in every state, and no step
takes the offset back while an allocation is held. -/
theorem references_exact (hr : r.Valid) {s : Area ι} (hs : s.Start) (ops : List (Op ι))
    (hf : Fine r ops (start s)) :
    Exact (ops.foldl (step r) (start s)) ∧ ∀ op : Op ι, op.Fine (ops.foldl (step r) (start s)) →
        (step r (ops.foldl (step r) (start s)) op).area.offset.toNat <
          (ops.foldl (step r) (start s)).area.offset.toNat →
        ∀ p z, (step r (ops.foldl (step r) (start s)) op).held p z = 0 := by
  have h := (hs.inv (r := r)).run hr hf
  exact ⟨h.toExact,fun op hop => (h.step hr hop).2⟩

/-- The first process takes an allocation, the second one looks it up, the first one gives it up, and
the second one takes another. -/
def pairOps : List (Op (Fin 2)) := [.memalign ⟨firstProcess, fun _ => true, 0, 8, 8, some ['a']⟩,
    .memalign ⟨secondProcess, fun _ => true, 0, 8, 8, some ['a']⟩, .free secondProcess 8192,
    .reset firstProcess, .memalign ⟨secondProcess, fun _ => true, 0, 8, 8, some ['b']⟩]

theorem references_exact_pair :
    Exact (pairOps.foldl (step pairRegion) (start cleared)) ∧
      ∀ op : Op (Fin 2), op.Fine (pairOps.foldl (step pairRegion) (start cleared)) →
        (step pairRegion (pairOps.foldl (step pairRegion) (start cleared)) op).area.offset.toNat <
          (pairOps.foldl (step pairRegion) (start cleared)).area.offset.toNat →
        ∀ p z, (step pairRegion (pairOps.foldl (step pairRegion) (start cleared)) op).held p z = 0 := by
  refine references_exact pairRegion_valid cleared_start pairOps
    ⟨⟨⟨3,rfl⟩,by decide⟩,⟨⟨3,rfl⟩,by decide⟩,trivial,⟨fun z hz => ?_,fun z => ?_,?_⟩,
      ⟨⟨3,rfl⟩,by decide⟩,trivial⟩
  · change Function.update (fun _ : ℕ => false) 0 true z=true at hz
    change z=0
    by_contra h
    simp [h] at hz
  · change Function.update (fun _ : ℕ => 0) 0 1 z≤1
    by_cases h : z=0 <;> simp [h]
  · exact Or.inr ⟨0,by decide,⟨0,rfl,by decide⟩,Or.inr (by decide)⟩

/-- Process 0 takes two allocations and resets: the second mark stays. Then process 1 takes two, and
with the mark that is left process 0 releases the second of them. -/
def strayOps : List (Op (Fin 2)) := [.memalign ⟨firstProcess, fun _ => true, 0, 8, 8, some ['a']⟩,
    .memalign ⟨firstProcess, fun _ => true, 0, 8, 8, some ['b']⟩, .reset firstProcess,
    .memalign ⟨secondProcess, fun _ => true, 0, 8, 8, some ['c']⟩,
    .memalign ⟨secondProcess, fun _ => true, 0, 8, 8, some ['d']⟩, .reset firstProcess]

theorem reset_releases_other :
    (((strayOps.take 3).foldl (step pairRegion) (start cleared)).held 0 1 = 0 ∧
      (((strayOps.take 3).foldl (step pairRegion) (start cleared)).area.procs 0).marks 1 = true) ∧
    ((strayOps.foldl (step pairRegion) (start cleared)).held 1 1 = 1 ∧
      ((strayOps.foldl (step pairRegion) (start cleared)).area.metas 1).refCount = 0 ∧
      ((strayOps.foldl (step pairRegion) (start cleared)).area.metas 1).key = []) := by
  decide

end PAMI.Memory
