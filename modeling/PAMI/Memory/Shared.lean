import Mathlib.Algebra.BigOperators.Group.Finset.Piecewise
import Mathlib.Algebra.Order.BigOperators.Group.Finset
import Mathlib.Algebra.Order.Ring.Int
import PAMI.Memory.Blocks

namespace PAMI.Memory

open Area Function List Finset

/-- What a process does with the memory manager, under the lock. -/
inductive Op (ι : Type*)
  | memalign (c : Call ι)
  | free (p : ι) (mem : Size)
  | reset (p : ι)

/-- The area, and the references each process has taken and not released. -/
structure Shared (ι : Type*) where
  area : Area ι
  held : ι → ℕ → ℕ

variable {ι : Type*} [DecidableEq ι]

/-- One more reference of `p` to `z`. -/
def addHeld (held : ι → ℕ → ℕ) (p : ι) (z : ℕ) : ι → ℕ → ℕ := update held p (update (held p) z (held p z + 1))

/-- A successful `memalign` takes a reference, `reset` gives up all of the process, and `free` keeps
the allocation for it. -/
def step (r : Region ι) (sh : Shared ι) : Op ι → Shared ι
  | .memalign c =>
    match c.run r sh.area with
    | (s, .SUCCESS _ z _) => ⟨s, addHeld sh.held c.p z⟩
    | (s, _) => ⟨s, sh.held⟩
  | .free p mem => ⟨sh.area.free r p mem, sh.held⟩
  | .reset p => ⟨(sh.area.reset p).1, update sh.held p 0⟩

def Shared.start (s : Area ι) : Shared ι := ⟨s, fun _ _ => 0⟩

/-- What process `p` gives up: one reference to the entry it has located last, and if it does not
see all allocations it sees one that will stay. -/
structure Releasable (sh : Shared ι) (p : ι) : Prop where
  last : ∀ z, (sh.area.procs p).marks z = true → z = (sh.area.procs p).lastZ
  once : ∀ z, sh.held p z ≤ 1
  seen : (∀ z, (sh.area.metas z).key ≠ [] → sh.area.Sees p z) ∨
    ∃ z, (sh.area.metas z).key ≠ [] ∧ sh.area.Sees p z ∧
      ((sh.area.procs p).marks z = false ∨ (sh.area.metas z).refCount ≠ 1)

def Op.Fine (sh : Shared ι) : Op ι → Prop
  | .memalign c => c.Proper
  | .free _ _ => True
  | .reset p => Releasable sh p

def Fine (r : Region ι) : List (Op ι) → Shared ι → Prop
  | [], _ => True
  | op :: ops, sh => op.Fine sh ∧ Fine r ops (step r sh op)

/-- The bytes of the allocation in entry `z`. -/
def Area.block (s : Area ι) (z : ℕ) : Set ℕ :=
  Set.Ico (s.metas z).offset.toNat ((s.metas z).offset.toNat + (s.metas z).userSize.toNat)

/-- Counts and marks are those of the references that are held, and the blocks in use are disjoint,
in front of the offset. -/
structure Exact [Fintype ι] (sh : Shared ι) : Prop where
  refCount : ∀ z, (sh.area.metas z).refCount = ∑ p, (sh.held p z : ℤ)
  live : ∀ z, (sh.area.metas z).key ≠ [] ↔ 0 < (sh.area.metas z).refCount
  marks : ∀ p z, (sh.area.procs p).marks z = true ↔ 0 < sh.held p z
  disjoint : ∀ y z, (sh.area.metas y).key ≠ [] → (sh.area.metas z).key ≠ [] → y ≠ z →
    Disjoint (sh.area.block y) (sh.area.block z)
  used : ∀ z, (sh.area.metas z).key ≠ [] → sh.area.block z ⊆ Set.Iio sh.area.offset.toNat

structure Inv [Fintype ι] (r : Region ι) (sh : Shared ι) : Prop extends Exact sh where
  mapped : ∀ p, sh.area.Mapped p
  sees : ∀ p z, (sh.area.procs p).marks z = true → sh.area.Sees p z
  inside : sh.area.offset.toNat ≤ r.size.toNat

section Sums

variable [Fintype ι] (held : ι → ℕ → ℕ) (p : ι) (z : ℕ)

theorem sum_addHeld (y : ℕ) : ∑ q, (addHeld held p z q y : ℤ) = ∑ q, (held q y : ℤ)+if y = z then 1 else 0 := by
  have h : ∀ q, (addHeld held p z q y : ℤ)=held q y+if q=p then (if y=z then 1 else 0) else 0 := by
    intro q
    by_cases hq : q=p
    · subst hq
      by_cases hy : y=z
      · subst hy; simp [addHeld]
      · simp [addHeld,hy]
    · simp [addHeld,hq]
  rw [sum_congr rfl fun q _ => h q,sum_add_distrib]
  simp

theorem sum_release (y : ℕ) : ∑ q, (update held p 0 q y : ℤ) = ∑ q, (held q y : ℤ)-held p y := by
  have h : ∀ q, (update held p 0 q y : ℤ)=held q y-if q=p then (held p y : ℤ) else 0 := by
    intro q
    by_cases hq : q=p
    · subst hq; simp
    · simp [hq]
  rw [sum_congr rfl fun q _ => h q,sum_sub_distrib]
  simp

omit [DecidableEq ι] in
theorem held_le_sum (y : ℕ) : (held p y : ℤ) ≤ ∑ q, (held q y : ℤ) :=
  Finset.single_le_sum (f := fun q => (held q y : ℤ)) (fun _ _ => Int.natCast_nonneg _) (mem_univ p)

end Sums

namespace Area

variable {s : Area ι} {p : ι}

def inUse (s : Area ι) (z : ℕ) : Bool := !(s.metas z).isFree

omit [DecidableEq ι] in
theorem inUse_iff (s : Area ι) (z : ℕ) : s.inUse z = true ↔ (s.metas z).key ≠ [] := by
  simp [inUse,MemoryManagerAlloc.isFree]

/-- The area after the reference to the entry located last is given up, if there is one. -/
def dropped (s : Area ι) (p : ι) : Area ι :=
  if (s.procs p).marks (s.procs p).lastZ = true then (s.freeMeta p (s.procs p).lastZ).1 else s

theorem foldl_unmarked (zs : List ℕ) (hz : ∀ z ∈ zs, (s.procs p).marks z = false) (n : ℕ) :
    zs.foldl (freeOne p) (s, n) = (s, n+(zs.filter s.inUse).length) := by
  induction zs generalizing n with
  | nil => simp
  | cons z zs ih =>
    have hone : freeOne p (s, n) z=(s, n+if s.inUse z=true then 1 else 0) := by
      have hm := hz z (List.mem_cons_self ..)
      cases hf : (s.metas z).isFree <;> simp [freeOne,inUse,hf,hm]
    rw [foldl_cons,hone,ih (fun y hy => hz y (List.mem_cons_of_mem _ hy))]
    cases hu : s.inUse z with
    | false => simp [hu]
    | true =>
      simp [hu]
      omega

theorem freeMeta_fields (z : ℕ) :
    (s.freeMeta p z).1.offset=s.offset ∧ (s.freeMeta p z).1.nmetas=s.nmetas ∧
      (∀ q, ((s.freeMeta p z).1.procs q).attached=(s.procs q).attached) ∧
      (∀ q, q≠p → ((s.freeMeta p z).1.procs q) = s.procs q) ∧
      ((s.freeMeta p z).1.procs p).marks = update (s.procs p).marks (s.procs p).lastZ false ∧
      ∀ y, y≠z → (s.freeMeta p z).1.metas y = s.metas y := by
  refine ⟨rfl,rfl,fun q => ?_,fun q hq => ?_,?_,fun y hy => ?_⟩
  · by_cases hq : q=p
    · subst hq; simp [freeMeta,unMark]
    · simp [freeMeta,unMark,hq]
  · simp [freeMeta,unMark,hq]
  · simp [freeMeta,unMark]
  · simp [freeMeta,unMark,hy]

theorem freeMeta_metas (z : ℕ) : (s.freeMeta p z).1.metas z =
    { s.metas z with
      refCount := (s.metas z).refCount-1
      key := if (s.metas z).refCount=1 then [] else (s.metas z).key } := by
  simp [freeMeta,unMark]

theorem foldl_freeOne (zs : List ℕ) (hnd : zs.Nodup)
    (hla : ∀ z, (s.procs p).marks z = true → z=(s.procs p).lastZ)
    (hmem : ∀ z, (s.procs p).marks z = true → z ∈ zs ∧ (s.metas z).key ≠ []) :
    zs.foldl (freeOne p) (s, 0) = (s.dropped p, (zs.filter (s.dropped p).inUse).length) := by
  cases hm : (s.procs p).marks (s.procs p).lastZ with
  | false =>
    have hnn : ∀ z ∈ zs, (s.procs p).marks z=false := by
      intro z _
      by_contra hz
      have hz : (s.procs p).marks z=true := by simpa using hz
      rw [hla z hz,hm] at hz
      cases hz
    rw [foldl_unmarked zs hnn,dropped,if_neg (by simp [hm]),Nat.zero_add]
  | true =>
    obtain ⟨hin,hkey⟩ := hmem _ hm
    obtain ⟨as,bs,rfl⟩ := append_of_mem hin
    have hd : s.dropped p=(s.freeMeta p (s.procs p).lastZ).1 := by rw [dropped,if_pos hm]
    obtain ⟨-,-,-,-,hmar,hoth⟩ := freeMeta_fields (s := s) (p := p) (s.procs p).lastZ
    rw [← hd] at hmar hoth
    generalize hL : (s.procs p).lastZ=L at *
    have hnd' := nodup_middle.1 hnd
    have hnot : ∀ z ∈ as ++ bs, z≠L := fun z hz h => (nodup_cons.1 hnd').1 (h ▸ hz)
    have has : ∀ z ∈ as, (s.procs p).marks z=false := by
      intro z hz
      by_contra hc
      exact hnot z (mem_append_left _ hz) (hla z (by simpa using hc))
    have hbs : ∀ z ∈ bs, ((s.dropped p).procs p).marks z=false := by
      intro z hz
      have hzL := hnot z (mem_append_right _ hz)
      rw [hmar,update_of_ne hzL]
      by_contra hc
      exact hzL (hla z (by simpa using hc))
    have hsm : as.filter (s.dropped p).inUse = as.filter s.inUse := by
      refine List.filter_congr fun z hz => ?_
      rw [inUse,inUse,hoth z (hnot z (mem_append_left _ hz))]
    have hone : ∀ n, freeOne p (s, n) L=(s.dropped p, n+if (s.dropped p).inUse L=true then 1 else 0) := by
      intro n
      have hfr : (s.metas L).isFree=false := by simpa [MemoryManagerAlloc.isFree] using hkey
      have hfm : s.freeMeta p L=(s.dropped p, (s.metas L).refCount == 1) := Prod.ext hd.symm rfl
      have huse : (s.dropped p).inUse L = !((s.metas L).refCount == 1) := by
        rw [inUse,hd,freeMeta_metas,MemoryManagerAlloc.isFree]
        by_cases hr : (s.metas L).refCount=1
        · simp [hr]
        · have : (s.metas L).key.isEmpty=false := hfr
          simp [hr,this]
      rw [huse]
      cases hr : (s.metas L).refCount == 1 <;> simp [freeOne,hfr,hm,hfm,hr]
    rw [foldl_append,foldl_unmarked as has,foldl_cons,hone,foldl_unmarked bs hbs,
      filter_append,hsm,List.filter_cons]
    cases (s.dropped p).inUse L with
    | false => simp
    | true =>
      simp
      omega

end Area

variable [Fintype ι] {r : Region ι} {sh : Shared ι} {p : ι} {z : ℕ}

omit [DecidableEq ι] in
theorem Exact.live_of_held (h : Exact sh) (hz : 0 < sh.held p z) : (sh.area.metas z).key ≠ [] := by
  rw [h.live,h.refCount]
  have := held_le_sum sh.held p z
  omega

omit [DecidableEq ι] in
theorem Exact.held_of_free (h : Exact sh) (hz : (sh.area.metas z).key = []) : sh.held p z = 0 := by
  by_contra hc
  exact h.live_of_held (p := p) (by omega) hz

omit [DecidableEq ι] in
theorem Exact.refCount_free (h : Exact sh) (hz : (sh.area.metas z).key = []) :
    (sh.area.metas z).refCount=0 := by
  rw [h.refCount]
  exact Finset.sum_eq_zero fun q _ => by rw [h.held_of_free hz]; rfl

/-- What `dropped` leaves when the process can release all it holds. -/
structure Dropped (sh : Shared ι) (p : ι) (u : Area ι) : Prop where
  offset : u.offset = sh.area.offset
  nmetas : u.nmetas = sh.area.nmetas
  attached : ∀ q, (u.procs q).attached = (sh.area.procs q).attached
  other : ∀ q, q ≠ p → u.procs q = sh.area.procs q
  marks : ∀ z, (u.procs p).marks z = false
  refCount : ∀ z, (u.metas z).refCount = (sh.area.metas z).refCount - sh.held p z
  key : ∀ z, (u.metas z).key ≠ [] ↔ 0 < (u.metas z).refCount
  block : ∀ z, u.block z = sh.area.block z

theorem Exact.dropped (h : Exact sh) (hp : Releasable sh p) :
    Dropped sh p (sh.area.dropped p) := by
  have hhl : ∀ z, sh.held p z = if (sh.area.procs p).marks z=true then 1 else 0 := by
    intro z
    have h1 := h.marks p z
    have h2 := hp.once z
    split
    · rename_i hm; have := h1.1 hm; omega
    · rename_i hm; have := mt h1.2 hm; omega
  cases hm : (sh.area.procs p).marks (sh.area.procs p).lastZ with
  | false =>
    have hu : sh.area.dropped p=sh.area := by rw [Area.dropped,if_neg (by simp [hm])]
    have hnn : ∀ z, (sh.area.procs p).marks z=false := by
      intro z
      by_contra hz
      have hz : (sh.area.procs p).marks z=true := by simpa using hz
      rw [hp.last z hz,hm] at hz
      cases hz
    rw [hu]
    refine ⟨rfl,rfl,fun _ => rfl,fun _ _ => rfl,hnn,fun z => ?_,h.live,fun _ => rfl⟩
    rw [hhl,hnn]
    simp
  | true =>
    have hu : sh.area.dropped p=(sh.area.freeMeta p (sh.area.procs p).lastZ).1 := by rw [Area.dropped,if_pos hm]
    obtain ⟨ho,hn,ha,hq,hmk,hot⟩ := freeMeta_fields (s := sh.area) (p := p) (sh.area.procs p).lastZ
    have hse := freeMeta_metas (s := sh.area) (p := p) (sh.area.procs p).lastZ
    rw [hu]
    have href : ∀ z, ((sh.area.freeMeta p (sh.area.procs p).lastZ).1.metas z).refCount =
        (sh.area.metas z).refCount-sh.held p z := by
      intro z
      by_cases hz : z=(sh.area.procs p).lastZ
      · rw [hhl,hz,hse,hm]; simp
      · have hz' : (sh.area.procs p).marks z=false := by
          by_contra hc
          exact hz (hp.last z (by simpa using hc))
        rw [hhl,hot z hz,hz']
        simp
    refine ⟨ho,hn,ha,hq,fun z => ?_,href,fun z => ?_,fun z => ?_⟩
    · rw [hmk]
      by_cases hz : z=(sh.area.procs p).lastZ
      · simp [hz]
      · rw [update_of_ne hz]
        by_contra hc
        exact hz (hp.last z (by simpa using hc))
    · by_cases hz : z=(sh.area.procs p).lastZ
      · have hlive := h.live_of_held ((h.marks p _).1 hm)
        have hpos := (h.live _).1 hlive
        rw [hz,hse]
        by_cases hone : (sh.area.metas (sh.area.procs p).lastZ).refCount=1
        · simp [hone]
        · simp only [if_neg hone]
          exact ⟨fun _ => by omega,fun _ => hlive⟩
      · rw [hot z hz]; exact h.live z
    · by_cases hz : z=(sh.area.procs p).lastZ
      · rw [hz,Area.block,Area.block,hse]
      · rw [Area.block,Area.block,hot z hz]

theorem Inv.freeAll (h : Inv r sh) (hp : Releasable sh p) :
    sh.area.freeAll p = sh.area.dropped p ∨ sh.area.freeAll p = { sh.area.dropped p with offset := 0 } ∧
        ∀ z, ((sh.area.dropped p).metas z).key = [] := by
  have hd := h.dropped hp
  have hmem : ∀ z, (sh.area.procs p).marks z=true → z ∈ sh.area.visible p ∧ (sh.area.metas z).key ≠ [] := fun z hz =>
    ⟨(h.mapped p).mem_visible.2 (h.sees p z hz),h.live_of_held ((h.marks p z).1 hz)⟩
  have hf := foldl_freeOne (sh.area.visible p) (h.mapped p).visible_nodup hp.last hmem
  rw [Area.freeAll,hf]
  simp only [length_eq_zero_iff]
  split
  · rename_i hnil
    refine Or.inr ⟨rfl,fun z => ?_⟩
    have hemp : ∀ z, sh.area.Sees p z → ((sh.area.dropped p).metas z).key = [] := by
      intro z hz
      by_contra hc
      have : z ∈ (sh.area.visible p).filter (sh.area.dropped p).inUse :=
        List.mem_filter.2 ⟨(h.mapped p).mem_visible.2 hz,(inUse_iff _ z).2 hc⟩
      rw [hnil] at this
      cases this
    by_contra hc
    have hpos := (hd.key z).1 hc
    rw [hd.refCount] at hpos
    rcases hp.seen with hall | ⟨y,hy,hsee,hor⟩
    · exact hc (hemp z (hall z ((h.live z).2 (by omega))))
    · refine (hd.key y).2 ?_ (hemp y hsee)
      have hlive := (h.live y).1 hy
      have honce := hp.once y
      rw [hd.refCount]
      rcases hor with hm | hr
      · have : ¬0 < sh.held p y := fun hy => by rw [(h.marks p y).2 hy] at hm; cases hm
        omega
      · omega
  · exact Or.inl rfl

omit [DecidableEq ι] in
theorem Exact.key_of_dropped (h : Exact sh) {u : Area ι} (hd : Dropped sh p u) (hz : (u.metas z).key ≠ []) :
    (sh.area.metas z).key ≠ [] := by
  have := (hd.key z).1 hz
  rw [hd.refCount] at this
  exact (h.live z).2 (by omega)

theorem Inv.reset (h : Inv r sh) (hp : Releasable sh p) : Inv r (step r sh (.reset p)) := by
  have hd := h.dropped hp
  have hfa := h.freeAll hp
  have hmet : (sh.area.freeAll p).metas=(sh.area.dropped p).metas := by
    rcases hfa with hf | ⟨hf,-⟩ <;> rw [hf]
  have hpro : (sh.area.freeAll p).procs=(sh.area.dropped p).procs := by
    rcases hfa with hf | ⟨hf,-⟩ <;> rw [hf]
  have hnme : (sh.area.freeAll p).nmetas=(sh.area.dropped p).nmetas := by
    rcases hfa with hf | ⟨hf,-⟩ <;> rw [hf]
  have hblo : ∀ z, (sh.area.freeAll p).block z = sh.area.block z := fun z => by
    rw [Area.block,hmet]; exact hd.block z
  have hkey : ∀ z, ((sh.area.freeAll p).metas z).key ≠ [] → (sh.area.metas z).key ≠ [] :=
    fun z hz => h.key_of_dropped hd (by rwa [hmet] at hz)
  refine
    { refCount := fun z => ?_, live := fun z => ?_, marks := fun q z => ?_,
      disjoint := fun y z hy hz hyz => ?_, used := fun z hz => ?_, mapped := fun q => ?_,
      sees := fun q z hz => ?_, inside := ?_ }
  · simp only [step,Area.reset,hmet]
    rw [sum_release,hd.refCount,h.refCount]
  · simp only [step,Area.reset,hmet]
    exact hd.key z
  · simp only [step,Area.reset,hpro]
    by_cases hq : q=p
    · subst hq; simp [hd.marks]
    · rw [hd.other q hq,update_of_ne hq]
      exact h.marks q z
  · simp only [step,Area.reset,hblo] at hy hz ⊢
    exact h.disjoint y z (hkey y hy) (hkey z hz) hyz
  · simp only [step,Area.reset,hblo] at hz ⊢
    rcases hfa with hf | ⟨-,hall⟩
    · rw [hf,hd.offset]
      exact h.used z (hkey z hz)
    · exact absurd (hall z) (by rwa [hmet] at hz)
  · obtain ⟨k,hk,ha⟩ := h.mapped q
    simp only [step,Area.reset,Area.Mapped,hnme,hpro,hd.nmetas,hd.attached]
    exact ⟨k,hk,ha⟩
  · simp only [step,Area.reset,hpro,Area.Sees,hd.attached] at hz ⊢
    by_cases hq : q=p
    · subst hq; rw [hd.marks] at hz; cases hz
    · rw [hd.other q hq] at hz
      exact h.sees q z hz
  · simp only [step,Area.reset]
    rcases hfa with hf | ⟨hf,-⟩
    · rw [hf,hd.offset]; exact h.inside
    · rw [hf]; exact Nat.zero_le _

theorem Inv.reset_offset (h : Inv r sh) (hp : Releasable sh p)
    (hlt : (step r sh (.reset p)).area.offset≠sh.area.offset) (q : ι) (z : ℕ) :
    (step r sh (.reset p)).held q z = 0 := by
  rcases h.freeAll hp with hf | ⟨hf,hall⟩
  · exact absurd ((congrArg Area.offset hf).trans (h.dropped hp).offset) hlt
  · refine (h.reset hp).toExact.held_of_free ?_
    simp only [step,Area.reset,hf]
    exact hall z

theorem Inv.free (h : Inv r sh) (mem : Size) : Inv r (step r sh (.free p mem)) := by
  obtain ⟨c,ha,hm,hs⟩ : ∃ c : Process, c.attached=(sh.area.procs p).attached ∧
      c.marks=(sh.area.procs p).marks ∧ sh.area.free r p mem = sh.area.setProc p c := by
    unfold Area.free findOffset
    split
    · refine ⟨_,?_,?_,rfl⟩ <;> rfl
    · exact ⟨sh.area.procs p,rfl,rfl,by simp [Area.setProc]⟩
  have hatt : ∀ q, ((sh.area.setProc p c).procs q).attached=(sh.area.procs q).attached := by
    intro q
    by_cases hq : q=p
    · subst hq; simpa using ha
    · simp [hq]
  have hmk : ∀ q, ((sh.area.setProc p c).procs q).marks=(sh.area.procs q).marks := by
    intro q
    by_cases hq : q=p
    · subst hq; simpa using hm
    · simp [hq]
  simp only [step,hs]
  exact
    { refCount := h.refCount
      live := h.live
      marks := fun q z => by rw [hmk]; exact h.marks q z
      disjoint := h.disjoint
      used := h.used
      mapped := fun q => by
        obtain ⟨k,hk,ha⟩ := h.mapped q
        exact ⟨k,hk,by rwa [hatt]⟩
      sees := fun q z hz => by
        rw [hmk] at hz
        obtain ⟨x,hx,hz⟩ := h.sees q z hz
        exact ⟨x,by rwa [hatt],hz⟩
      inside := h.inside }

end PAMI.Memory
