import Mathlib.Data.Set.Lattice
import Mathlib.Order.CompletePartialOrder
import PAMI.Memory.Locate

namespace PAMI.Memory

open Nat Function

theorem low_bits {a : Size} {k : ℕ} (ha : a.toNat=2^k) : (a-1).toNat=2^k-1 := by
  have h1 : (1 : Size)≤a := by
    rw [BitVec.le_def,ha]
    exact Nat.one_le_two_pow
  rw [BitVec.toNat_sub_of_le h1,ha]
  rfl

theorem clear_low_bits (x : Size) {a : Size} {k : ℕ} (ha : a.toNat=2^k) :
    (x &&& ~~~(a-1)).toNat=x.toNat/2^k*2^k := by
  have hshi : x &&& ~~~(a-1) = (x >>> k) <<< k := by
    apply BitVec.eq_of_getLsbD_eq
    intro i hi
    have hbit : (a-1).getLsbD i = decide (i<k) := by rw [BitVec.getLsbD,low_bits ha,testBit_two_pow_sub_one]
    rw [BitVec.getLsbD_and,BitVec.getLsbD_not,hbit,BitVec.getLsbD_shiftLeft]
    by_cases hik : i<k
    · simp [hik]
    · simp [hik,hi,show k+(i-k)=i by omega]
  rw [hshi,BitVec.toNat_shiftLeft,BitVec.toNat_ushiftRight,shiftLeft_eq,shiftRight_eq_div_pow]
  exact mod_eq_of_lt ((div_mul_le_self _ _).trans_lt x.isLt)

def IsPow (a : Size) : Prop := ∃ k, a.toNat = 2 ^ k

theorem dvd_or_dvd {a b : Size} (ha : IsPow a) (hb : IsPow b) (h : a≤b) :
    a.toNat ∣ b.toNat := by
  obtain ⟨i,ha⟩ := ha
  obtain ⟨j,hb⟩ := hb
  rw [BitVec.le_def,ha,hb] at h
  rw [ha,hb]
  exact pow_dvd_pow 2 ((Nat.pow_le_pow_iff_right (by omega)).1 h)

theorem getPadding_spec {base off align : Size} (ha : IsPow align)
    (h : base.toNat+off.toNat≤2^63) :
    off.toNat≤(getPadding base off align).toNat ∧ base.toNat+(getPadding base off align).toNat≤2^63 ∧
      align.toNat ∣ base.toNat+(getPadding base off align).toNat := by
  obtain ⟨k,hk⟩ := ha
  have hk63 : k≤63 := by
    have := align.isLt
    rw [hk] at this
    have := (Nat.pow_lt_pow_iff_right (a := 2) (by omega)).1 this
    omega
  have hpos := Nat.two_pow_pos k
  have hpow : 2^k≤2^63 := Nat.pow_le_pow_right (by omega) hk63
  have hsum : (base+off+(align-1)).toNat=base.toNat+off.toNat+(2^k-1) := by
    rw [BitVec.toNat_add,BitVec.toNat_add,low_bits hk]; omega
  have hx := clear_low_bits (base+off+(align-1)) hk
  rw [hsum] at hx
  obtain ⟨m,hm⟩ : 2^k ∣ 2^63 := pow_dvd_pow 2 hk63
  obtain ⟨q,hq⟩ : ∃ q, q=(base.toNat+off.toNat+(2^k-1))/2^k := ⟨_,rfl⟩
  rw [← hq] at hx
  have hle : q*2^k≤base.toNat+off.toNat+(2^k-1) := by rw [hq]; exact div_mul_le_self _ _
  have hge : base.toNat+off.toNat≤q*2^k := by
    have := lt_div_mul_add (a := base.toNat+off.toNat+(2^k-1)) hpos
    rw [← hq] at this; omega
  have hqm : q*2^k≤2^63 := by
    have hq1 : q < m+1 := by
      rw [hq]
      refine (Nat.div_lt_iff_lt_mul hpos).2 ?_
      rw [add_mul,one_mul,mul_comm m,← hm]
      omega
    calc q*2^k ≤ m*2^k := Nat.mul_le_mul_right _ (by omega)
      _ = 2^63 := by rw [hm,mul_comm]
  have hres : (getPadding base off align).toNat=q*2^k-base.toNat := by
    rw [getPadding,BitVec.toNat_sub_of_le (by rw [BitVec.le_def,hx]; omega),hx]
  rw [hres,hk]
  refine ⟨by omega,by omega,q,?_⟩
  rw [mul_comm (2^k)]
  omega

/-- A region in the lower half of the address space, which is where a process has its memory. -/
structure Region.Valid {ι : Type*} (r : Region ι) : Prop where
  isPow : ∀ p, IsPow (r.alignment p)
  fits : ∀ p, (r.base p).toNat + r.size.toNat ≤ 2 ^ 63

section Grant

variable {ι : Type*} {r : Region ι} (p : ι) {alignment bytes offset : Size}

theorem isPow_alignTo (hr : r.Valid) (ha : IsPow alignment) : IsPow (Area.alignTo r p alignment) := by
  unfold Area.alignTo
  split
  · exact hr.isPow p
  · exact ha

theorem dvd_alignTo (hr : r.Valid) (ha : IsPow alignment) :
    alignment.toNat ∣ (Area.alignTo r p alignment).toNat := by
  unfold Area.alignTo
  split
  · rename_i h
    exact dvd_or_dvd ha (hr.isPow p) (BitVec.le_of_lt h)
  · exact dvd_rfl

/-- The space of a new allocation: behind the space in use, inside the region, aligned. -/
structure SpaceAt (r : Region ι) (p : ι) (alignment bytes offset off : Size) : Prop where
  behind : offset.toNat ≤ off.toNat
  inside : off.toNat + bytes.toNat ≤ r.size.toNat
  endAt : (off + bytes).toNat = off.toNat + bytes.toNat
  address : (r.base p + off).toNat = (r.base p).toNat + off.toNat
  aligned : alignment.toNat ∣ (r.base p + off).toNat

theorem spaceAt (hr : r.Valid) (ha : IsPow alignment) (hb : bytes.toNat<2^63)
    (ho : offset.toNat ≤ r.size.toNat)
    (hrm : getPadding (r.base p) offset (Area.alignTo r p alignment)+bytes ≤ r.size) :
    SpaceAt r p alignment bytes offset
      (getPadding (r.base p) offset (Area.alignTo r p alignment)) := by
  have hfit := hr.fits p
  have hbase : (r.base p).toNat+offset.toNat≤2^63 := by omega
  obtain ⟨h1,h2,h3⟩ := getPadding_spec (isPow_alignTo p hr ha) hbase
  rw [BitVec.le_def,BitVec.toNat_add] at hrm
  have hend : (getPadding (r.base p) offset (Area.alignTo r p alignment)+bytes).toNat =
      (getPadding (r.base p) offset (Area.alignTo r p alignment)).toNat+bytes.toNat := by
    rw [BitVec.toNat_add]; omega
  have haddr : (r.base p+getPadding (r.base p) offset (Area.alignTo r p alignment)).toNat =
      (r.base p).toNat+(getPadding (r.base p) offset (Area.alignTo r p alignment)).toNat := by
    rw [BitVec.toNat_add]; omega
  rw [← BitVec.toNat_add,hend] at hrm
  exact ⟨h1,hrm,hend,haddr,haddr ▸ (dvd_alignTo p hr ha).trans h3⟩

end Grant

open Area

/-- The meta-data area before the first call: its blocks are allocated when they are needed, or all
of them beforehand (`_pre_alloc`). -/
structure Area.Start {ι : Type*} (s : Area ι) : Prop where
  offset : s.offset = 0
  free : ∀ z, (s.metas z).key = []
  refCount : ∀ z, (s.metas z).refCount = 0
  marks : ∀ p z, (s.procs p).marks z = false
  mapped : (s.nmetas = 0 ∧ ∀ p x, (s.procs p).attached x = false) ∨
    s.nmetas = MMMAX_N_META ∧ ∀ p x, (s.procs p).attached x = decide (x < MMMAX_N_META)

/-- A call of `memalign`. -/
structure Call (ι : Type*) where
  p : ι
  metaAlloc : ℕ → Bool
  memptr : ℕ
  alignment : Size
  bytes : Size
  key : Option Key

structure Call.Proper {ι : Type*} (c : Call ι) : Prop where
  isPow : IsPow c.alignment
  small : c.bytes.toNat < 2 ^ 63

/-- A call that succeeded, with the address it returned. -/
structure Grant (ι : Type*) where
  call : Call ι
  mem : Size
  z : ℕ
  found : Bool

variable {ι : Type*} [DecidableEq ι] (r : Region ι)

def Call.run (c : Call ι) (s : Area ι) : Area ι × Result :=
  s.memalign r c.metaAlloc c.p c.memptr c.alignment c.bytes c.key

def serveOne (sg : Area ι × List (Grant ι)) (c : Call ι) : Area ι × List (Grant ι) :=
  match c.run r sg.1 with
  | (s, .SUCCESS mem z found) => (s, sg.2 ++ [⟨c, mem, z, found⟩])
  | (s, _) => (s, sg.2)

/-- Calls in the order in which they hold the lock. -/
def serve (calls : List (Call ι)) (s : Area ι) : Area ι × List (Grant ι) := calls.foldl (serveOne r) (s, [])

/-- The key that the allocation of a call gets. -/
def Call.text (c : Call ι) (z : ℕ) : Key :=
  match c.key with
  | none => privateKey r c.p z
  | some [] => chosenKey r c.p c.memptr
  | some k => k

namespace Grant

def text (g : Grant ι) : Key := g.call.text r g.z

def offset (g : Grant ι) : Size := g.mem - r.base g.call.p

/-- The bytes of the allocation, as offsets in the region. -/
def block (t : Area ι) (g : Grant ι) : Set ℕ :=
  Set.Ico (g.offset r).toNat ((g.offset r).toNat + (t.metas g.z).userSize.toNat)

/-- What a grant says of the entry it names. -/
structure Ok (t : Area ι) (n : ℕ) (g : Grant ι) : Prop where
  live : g.z < n
  mem : g.mem = r.base g.call.p + (t.metas g.z).offset
  key : (t.metas g.z).key = g.text r
  first : g.call.key.getD [] ≠ [] → ∀ y < g.z, (t.metas y).key ≠ g.text r
  fresh : g.found = false → (t.metas g.z).userSize = g.call.bytes ∧ g.call.alignment.toNat ∣ g.mem.toNat
  found : g.found = true → g.call.key.getD [] ≠ []

end Grant

/-- The first `n` entries are in use, their blocks lie one behind the other, and the grants name
them. -/
structure Blocks (s : Area ι) (gs : List (Grant ι)) (n : ℕ) : Prop where
  mapped : ∀ p, s.Mapped p
  live : ∀ z, (s.metas z).key ≠ [] ↔ z < n
  exist : n ≤ metaStart s.nmetas
  full : ∀ p x, x < s.nmetas → (s.procs p).attached x = true ∨ metaStart x ≤ n
  order : ∀ y z, y < z → z < n → (s.metas y).offset.toNat + (s.metas y).userSize.toNat ≤ (s.metas z).offset.toNat
  used : ∀ z < n, (s.metas z).offset.toNat + (s.metas z).userSize.toNat ≤ s.offset.toNat
  inside : s.offset.toNat ≤ r.size.toNat
  grant : ∀ g ∈ gs, g.Ok r s n
  fresh : ∀ z < n, ∃ g ∈ gs, g.z = z ∧ g.found = false
  once : gs.Pairwise fun g g' => g.z = g'.z → g'.found = true

/-- The allocations of the calls so far. -/
structure Consistent (t : Area ι) (gs : List (Grant ι)) : Prop where
  sameKey : ∀ g ∈ gs, ∀ g' ∈ gs, ∀ k, k ≠ [] → g.call.key = some k → g'.call.key = some k →
    g.offset r = g'.offset r ∧ g.block r t = g'.block r t
  apart : gs.Pairwise fun g g' => g.text r ≠ g'.text r ∨ g'.found = false → Disjoint (g.block r t) (g'.block r t)
  noKey : ∀ g ∈ gs, g.call.key.getD [] = [] → g.found = false
  asked : ∀ g ∈ gs, g.found = false → (t.metas g.z).userSize = g.call.bytes ∧ g.call.alignment.toNat ∣ g.mem.toNat
  shared : ∀ g ∈ gs, ∃ g' ∈ gs, g'.found = false ∧ g'.offset r = g.offset r ∧ g'.block r t = g.block r t
  inside : ∀ g ∈ gs, g.block r t ⊆ Set.Iio r.size.toNat

/-- A call that fails takes no entry, no reference and no space. -/
def Unconsumed (c : Call ι) (s : Area ι) : Prop :=
  match c.run r s with
  | (_, .SUCCESS _ _ _) => True
  | (t, _) => t.offset = s.offset ∧
      (∀ z, (t.metas z).key = (s.metas z).key ∧ (t.metas z).refCount = (s.metas z).refCount) ∧
      ∀ p, (t.procs p).marks = (s.procs p).marks ∧ (t.procs p).lastZ = (s.procs p).lastZ

variable {r} {s t : Area ι} {gs : List (Grant ι)} {n : ℕ} {c : Call ι} {k : Key}

omit [DecidableEq ι] in
theorem Grant.Ok.congr {g : Grant ι} (h : g.Ok r s n) {m : ℕ} (hnm : n ≤ m)
    (hk : ∀ z<n, (t.metas z).key=(s.metas z).key)
    (ho : ∀ z<n, (t.metas z).offset=(s.metas z).offset ∧
      (t.metas z).userSize=(s.metas z).userSize) : g.Ok r t m where
  live := h.live.trans_le hnm
  mem := by rw [(ho _ h.live).1]; exact h.mem
  key := by rw [hk _ h.live]; exact h.key
  first hg y hy := by rw [hk _ (hy.trans h.live)]; exact h.first hg y hy
  fresh := by rw [(ho _ h.live).2]; exact h.fresh
  found := h.found

section

variable {p : ι} {m : ℕ → Bool} (h : Blocks r s gs n) (he : s.Extends p m t)
include h he

theorem Blocks.keep (hp : t.Mapped p) (hg : s.Grown t) {u : Area ι} (hu : u.nmetas=t.nmetas)
    (hua : ∀ q, (u.procs q).attached=(t.procs q).attached) (huo : u.offset=t.offset)
    (hk : ∀ z, (u.metas z).key=(s.metas z).key)
    (ho : ∀ z<n, (u.metas z).offset=(s.metas z).offset ∧ (u.metas z).userSize=(s.metas z).userSize) :
    Blocks r u gs n where
  mapped q := by
    obtain ⟨k,hk,ha⟩ := he.mapped hp (h.mapped q)
    exact ⟨k,by rwa [hu],by rwa [hua]⟩
  live z := by rw [hk]; exact h.live z
  exist := by rw [hu]; exact h.exist.trans (metaStart_mono he.nmetas)
  full q x hx := by
    rw [hu] at hx
    rw [hua]
    rcases hg with hg | ⟨y,-,hn,hlive⟩
    · rcases h.full q x (by omega) with ha | hm
      · refine Or.inl ?_
        by_cases hq : q=p
        · subst hq; exact he.attached x ha
        · rwa [he.other q hq]
      · exact Or.inr hm
    · have hy : metaStart y≤n := by
        by_contra hc
        exact absurd ((h.live n).1 (hlive n (by omega))) (lt_irrefl n)
      exact Or.inr ((metaStart_mono (by omega)).trans hy)
  order y z hyz hz := by
    rw [(ho y (hyz.trans hz)).1,(ho y (hyz.trans hz)).2,(ho z hz).1]
    exact h.order y z hyz hz
  used z hz := by
    rw [(ho z hz).1,(ho z hz).2,huo,he.offset]
    exact h.used z hz
  inside := by rw [huo,he.offset]; exact h.inside
  grant g hg := (h.grant g hg).congr le_rfl (fun z _ => hk z) ho
  fresh := h.fresh
  once := h.once

omit [DecidableEq ι] in
theorem Blocks.unique {z : ℕ} (hf : t.FirstFree p z) : z=n := by
  have h1 : ¬z<n := fun hz => (h.live z).2 hz (by rw [← he.metas]; exact hf.free)
  have h2 : ¬n<z := fun hn => by
    have := hf.least n hn
    rw [he.metas,h.live] at this
    exact lt_irrefl n this
  omega

omit [DecidableEq ι] in
theorem Blocks.absent (hp : t.Mapped p) (hf : t.FirstFree p n) (ha : s.Absent m p k) :
    ∀ y<n, (s.metas y).key≠k := by
  intro y hy
  rcases ha with ha | ⟨x,hx,hm,hpx,ha⟩
  · exact ha y (hy.trans_le h.exist)
  · exfalso
    have hxn : metaStart x≤n := (h.full p x hx).resolve_left (by simp [hpx])
    obtain ⟨x',-,hx',hn⟩ := hf.sees
    have hxx : x≤x' := by
      by_contra hc
      have := metaStart_mono (show x'+1≤x by omega)
      omega
    obtain ⟨k,-,hk⟩ := hp
    have : (t.procs p).attached x=true := by
      rw [hk] at hx' ⊢
      simp only [decide_eq_true_eq] at *
      omega
    rcases he.maps x this with h | h
    · simp [hpx] at h
    · simp [hm] at h

end

omit [DecidableEq ι] in
theorem privateKey_ne_nil (p : ι) (z : ℕ) : privateKey r p z ≠ [] := by
  simp [privateKey]

omit [DecidableEq ι] in
theorem chosenKey_ne_nil (p : ι) (memptr : ℕ) : chosenKey r p memptr ≠ [] := by
  simp [chosenKey]

omit [DecidableEq ι] in
theorem Call.text_some (hk : c.key = some k) (hne : k ≠ []) (z : ℕ) : c.text r z = k := by
  cases k with
  | nil => exact absurd rfl hne
  | cons a k => rw [Call.text,hk]

omit [DecidableEq ι] in
theorem Call.text_anonymous (h : c.key.getD [] = []) (z : ℕ) :
    c.text r z = if c.key=none then privateKey r c.p z else chosenKey r c.p c.memptr := by
  unfold Call.text
  match hk : c.key with
  | none => rfl
  | some [] => rfl
  | some (a :: k) => rw [hk] at h; simp at h

theorem Blocks.lookup (h : Blocks r s gs n) {z : ℕ} (hk : c.key = some k) (hne : k ≠ [])
    (he : s.Extends c.p c.metaAlloc t) (hp : t.Mapped c.p) (hn : t.nmetas=s.nmetas)
    (hz : (s.metas z).key=k) (hlt : ∀ y<z, (s.metas y).key≠k) :
    Blocks r (t.found c.p z) (gs ++ [⟨c,r.base c.p+(s.metas z).offset,z,true⟩]) n := by
  have hzn : z<n := (h.live z).1 (by rw [hz]; exact hne)
  have hkey : ∀ y, ((t.found c.p z).metas y).key=(s.metas y).key := by
    intro y
    by_cases hy : y=z
    · subst hy; simp [he.metas]
    · simp [hy,he.metas]
  have hoff : ∀ y, ((t.found c.p z).metas y).offset=(s.metas y).offset ∧
      ((t.found c.p z).metas y).userSize=(s.metas y).userSize := by
    intro y
    by_cases hy : y=z
    · subst hy; simp [he.metas]
    · simp [hy,he.metas]
  have hb := h.keep he hp (Or.inl hn.le) (u := t.found c.p z) rfl
    (fun q => found_attached t c.p z q) rfl hkey fun y _ => hoff y
  have htext : (⟨c,r.base c.p+(s.metas z).offset,z,true⟩ : Grant ι).text r=k := Call.text_some hk hne z
  refine { hb with grant := ?_, fresh := ?_, once := ?_ }
  · intro g hg
    rcases List.mem_append.1 hg with hg | hg
    · exact hb.grant g hg
    · rw [List.mem_singleton.1 hg]
      refine ⟨hzn,?_,?_,?_,fun hf => (by cases hf),fun _ => ?_⟩
      · simp only [(hoff z).1]
      · rw [htext,hkey,hz]
      · intro _ y hy
        rw [htext,hkey]
        exact hlt y hy
      · simpa [hk] using hne
  · intro y hy
    obtain ⟨g,hg,hgz⟩ := hb.fresh y hy
    exact ⟨g,List.mem_append_left _ hg,hgz⟩
  · refine List.pairwise_append.2 ⟨hb.once,List.pairwise_singleton _ _,?_⟩
    intro g _ g' hg' _
    rw [List.mem_singleton.1 hg']

theorem Blocks.allocate (h : Blocks r s gs n) {off : Size} {refs : ℤ} {m : MemoryManagerAlloc}
    (he : s.Extends c.p c.metaAlloc t) (hp : t.Mapped c.p) (hg : s.Grown t) (hf : t.FirstFree c.p n)
    (hk : k = c.text r n) (hne : k ≠ []) (habs : c.key.getD [] ≠ [] → s.Absent c.metaAlloc c.p k)
    (hm : m = ⟨k,refs,off,c.bytes,m.rawSize⟩) (hs : SpaceAt r c.p c.alignment c.bytes s.offset off) :
    Blocks r (t.granted c.p n m (off+c.bytes)) (gs ++ [⟨c,r.base c.p+off,n,false⟩])
      (n+1) := by
  have hb := h.keep he hp hg rfl (fun _ => rfl) rfl (fun z => by rw [he.metas])
    (fun z _ => by rw [he.metas]; exact ⟨rfl,rfl⟩)
  have hold : ∀ y<n, (t.granted c.p n m (off+c.bytes)).metas y = s.metas y := fun y hy => by
    rw [granted_metas,update_of_ne (by omega),he.metas]
  have hnew : (t.granted c.p n m (off+c.bytes)).metas n=m := by simp
  have hmk : m.key=k ∧ m.offset=off ∧ m.userSize=c.bytes := by rw [hm]; exact ⟨rfl,rfl,rfl⟩
  obtain ⟨x,-,hx,hnx⟩ := hf.sees
  have hxt : x<t.nmetas := by
    obtain ⟨k,hk,ha⟩ := hp
    rw [ha] at hx
    simp only [decide_eq_true_eq] at hx
    omega
  have habt : c.key.getD [] ≠ [] → ∀ y<n, (s.metas y).key≠k := fun hc => h.absent he hp hf (habs hc)
  refine
    { mapped := fun q => ?_, live := fun z => ?_, exist := ?_, full := fun q y hy => ?_,
      order := fun y z hyz hz => ?_, used := fun z hz => ?_, inside := ?_, grant := fun g hg => ?_,
      fresh := fun z hz => ?_, once := ?_ }
  · obtain ⟨k,hk,ha⟩ := hb.mapped q
    exact ⟨k,hk,by rwa [granted_attached]⟩
  · rcases lt_trichotomy z n with hz | rfl | hz
    · rw [hold z hz,h.live]; omega
    · rw [hnew,hmk.1]; simp [hne]
    · rw [granted_metas,update_of_ne (by omega),hb.live]; omega
  · rw [granted_nmetas]
    exact succ_le_of_lt (hnx.trans_le (metaStart_mono hxt))
  · rw [granted_attached]
    exact (hb.full q y hy).imp_right fun hy => by omega
  · rw [hold y (by omega)]
    rcases lt_or_ge z n with hz' | hz'
    · rw [hold z hz']; exact h.order y z hyz hz'
    · obtain rfl : z=n := by omega
      rw [hnew,hmk.2.1]
      exact (h.used y hyz).trans hs.behind
  · rw [granted_offset,hs.endAt]
    rcases lt_or_ge z n with hz' | hz'
    · rw [hold z hz']
      have := h.used z hz'
      have := hs.behind
      omega
    · obtain rfl : z=n := by omega
      rw [hnew,hmk.2.1,hmk.2.2]
  · rw [granted_offset,hs.endAt]; exact hs.inside
  · rcases List.mem_append.1 hg with hg | hg
    · exact (h.grant g hg).congr (by omega) (fun z hz => by rw [hold z hz])
        fun z hz => by rw [hold z hz]; exact ⟨rfl,rfl⟩
    · rw [List.mem_singleton.1 hg]
      refine ⟨by simp,?_,?_,?_,fun _ => ?_,fun hc => (by cases hc)⟩
      · simp only [hnew,hmk.2.1]
      · simp only [hnew,hmk.1]; exact hk
      · intro hc y hy
        rw [hold y hy,show (⟨c,r.base c.p+off,n,false⟩ : Grant ι).text r=k from hk.symm]
        exact habt hc y hy
      · rw [hnew,hmk.2.2]
        exact ⟨rfl,hs.aligned⟩
  · rcases lt_or_ge z n with hz' | hz'
    · obtain ⟨g,hg,hgz⟩ := h.fresh z hz'
      exact ⟨g,List.mem_append_left _ hg,hgz⟩
    · obtain rfl : z=n := by omega
      exact ⟨_,List.mem_append_right _ (List.mem_singleton_self _),rfl,rfl⟩
  · refine List.pairwise_append.2 ⟨h.once,List.pairwise_singleton _ _,?_⟩
    intro g hg g' hg' hz
    rw [List.mem_singleton.1 hg'] at hz
    have := (h.grant g hg).live
    simp only at hz
    omega

omit [DecidableEq ι] in
theorem Area.Start.blocks (hs : s.Start) : Blocks r s [] 0 where
  mapped p := by
    rcases hs.mapped with ⟨hn,ha⟩ | ⟨hn,ha⟩
    · exact ⟨0,by omega,fun x => by simp [ha]⟩
    · exact ⟨MMMAX_N_META,hn.ge,ha p⟩
  live z := by simp [hs.free]
  exist := zero_le _
  full p x hx := by
    rcases hs.mapped with ⟨hn,-⟩ | ⟨hn,ha⟩
    · omega
    · exact Or.inl (by rw [ha]; simp; omega)
  order y z _ hz := by omega
  used z hz := by omega
  inside := by rw [hs.offset]; exact zero_le _
  grant g hg := by cases hg
  fresh z hz := by omega
  once := List.Pairwise.nil

theorem Blocks.serveOne (hr : r.Valid) (h : Blocks r s gs n) (hc : c.Proper) :
    ∃ m, Blocks r (serveOne r (s, gs) c).1 (serveOne r (s, gs) c).2 m := by
  have hser := memalign_served r c.metaAlloc c.memptr c.alignment c.bytes c.key (h.mapped c.p)
  unfold Memory.serveOne Call.run
  generalize s.memalign r c.metaAlloc c.p c.memptr c.alignment c.bytes c.key=res at hser
  cases hser with
  | inval k hk hl => exact ⟨n,h⟩
  | found k t z hk hne he hp hn hz hlt hsee => exact ⟨n,h.lookup hk hne he hp hn hz hlt⟩
  | full t he hp hg =>
    exact ⟨n,h.keep he hp hg rfl (fun _ => rfl) rfl (fun z => by rw [he.metas])
      fun z _ => by rw [he.metas]; exact ⟨rfl,rfl⟩⟩
  | room t z m he hp hg hf hm hrefs =>
    obtain rfl := h.unique he hf
    refine ⟨z,h.keep he hp hg rfl (fun _ => rfl) rfl (fun y => ?_) fun y hy => ?_⟩
    · by_cases hy : y=z
      · subst hy
        simp only [setAlloc_metas,update_self,hm,← he.metas,hf.free]
      · simp [hy,he.metas]
    · rw [setAlloc_metas,update_of_ne (by omega),he.metas]
      exact ⟨rfl,rfl⟩
  | fresh t z k he hp hg hf hk hrm =>
    obtain rfl := h.unique he hf
    have hsp := spaceAt c.p hr hc.isPow hc.small h.inside hrm
    refine ⟨z+1,h.allocate he hp hg hf (k := k) ?_ ?_ ?_ rfl hsp⟩
    · rcases hk with ⟨ha,hk⟩ | ⟨hk,hne,-⟩
      · rw [hk,Call.text_anonymous ha]
      · rw [Call.text_some hk hne]
    · rcases hk with ⟨-,hk⟩ | ⟨-,hne,-⟩
      · rw [hk]
        split
        · exact privateKey_ne_nil c.p z
        · exact chosenKey_ne_nil c.p c.memptr
      · exact hne
    · intro hne
      rcases hk with ⟨ha,-⟩ | ⟨-,-,ha⟩
      · exact absurd ha hne
      · exact ha

theorem Blocks.serve (hr : r.Valid) {calls : List (Call ι)} (hc : ∀ c ∈ calls, c.Proper)
    (h : Blocks r s gs n) :
    ∃ m, Blocks r (calls.foldl (Memory.serveOne r) (s, gs)).1
      (calls.foldl (Memory.serveOne r) (s, gs)).2 m := by
  induction calls generalizing s gs n with
  | nil => exact ⟨n,h⟩
  | cons c cs ih =>
    obtain ⟨m,hm⟩ := h.serveOne hr (hc c (List.mem_cons_self ..))
    exact ih (fun c' hc' => hc c' (List.mem_cons_of_mem _ hc')) hm

section Offsets

variable {g g' : Grant ι}

omit [DecidableEq ι] in
theorem Grant.Ok.offset_eq (h : g.Ok r s n) : g.offset r = (s.metas g.z).offset := by
  rw [Grant.offset,h.mem,BitVec.add_comm,BitVec.add_sub_cancel]

omit [DecidableEq ι] in
theorem Grant.Ok.block_eq (h : g.Ok r s n) : g.block r s = Set.Ico (s.metas g.z).offset.toNat
      ((s.metas g.z).offset.toNat+(s.metas g.z).userSize.toNat) := by
  rw [Grant.block,h.offset_eq]

omit [DecidableEq ι] in
theorem Grant.Ok.same (h : g.Ok r s n) (h' : g'.Ok r s n) (hz : g.z=g'.z) :
    g.offset r = g'.offset r ∧ g.block r s = g'.block r s := by
  rw [h.block_eq,h'.block_eq,h.offset_eq,h'.offset_eq,hz]
  exact ⟨rfl,rfl⟩

omit [DecidableEq ι] in
theorem Blocks.disjoint (h : Blocks r s gs n) (hg : g.Ok r s n) (hg' : g'.Ok r s n)
    (hz : g.z≠g'.z) : Disjoint (g.block r s) (g'.block r s) := by
  rw [hg.block_eq,hg'.block_eq,Set.disjoint_left]
  intro x hx hx'
  simp only [Set.mem_Ico] at hx hx'
  rcases Nat.lt_or_gt_of_ne hz with hlt | hlt
  · have := h.order _ _ hlt hg'.live; omega
  · have := h.order _ _ hlt hg.live; omega

end Offsets

omit [DecidableEq ι] in
theorem Blocks.consistent (h : Blocks r s gs n) : Consistent r s gs where
  sameKey g hg g' hg' k hne hk hk' := by
    have ho := h.grant g hg
    have ho' := h.grant g' hg'
    have ht : g.text r=k := Call.text_some hk hne g.z
    have ht' : g'.text r=k := Call.text_some hk' hne g'.z
    refine ho.same ho' (le_antisymm ?_ ?_)
    · by_contra hlt
      refine ho.first (by simpa [hk] using hne) g'.z (by omega) ?_
      rw [ho'.key,ht,ht']
    · by_contra hlt
      refine ho'.first (by simpa [hk'] using hne) g.z (by omega) ?_
      rw [ho.key,ht,ht']
  apart := by
    refine h.once.imp_of_mem ?_
    intro g g' hg hg' honce hd
    refine h.disjoint (h.grant g hg) (h.grant g' hg') fun hz => ?_
    rcases hd with ht | hf
    · apply ht
      rw [← (h.grant g hg).key,← (h.grant g' hg').key,hz]
    · rw [honce hz] at hf; cases hf
  noKey g hg hk := by
    cases hf : g.found with
    | false => rfl
    | true => exact absurd hk ((h.grant g hg).found hf)
  asked g hg := (h.grant g hg).fresh
  shared g hg := by
    obtain ⟨g',hg',hz,hf⟩ := h.fresh g.z (h.grant g hg).live
    exact ⟨g',hg',hf,(h.grant g' hg').same (h.grant g hg) hz⟩
  inside g hg x hx := by
    rw [(h.grant g hg).block_eq] at hx
    have := h.used g.z (h.grant g hg).live
    have := h.inside
    simp only [Set.mem_Ico,Set.mem_Iio] at hx ⊢
    omega

theorem unconsumed (hp : s.Mapped c.p) : Unconsumed r c s := by
  have hser := memalign_served r c.metaAlloc c.memptr c.alignment c.bytes c.key hp
  unfold Unconsumed Call.run
  generalize s.memalign r c.metaAlloc c.p c.memptr c.alignment c.bytes c.key=res at hser
  cases hser with
  | inval k hk hl => exact ⟨rfl,fun _ => ⟨rfl,rfl⟩,fun _ => ⟨rfl,rfl⟩⟩
  | found => trivial
  | full t he hp hg =>
    exact ⟨he.offset,fun z => by rw [he.metas]; exact ⟨rfl,rfl⟩,fun q => ⟨he.marks_eq q,he.lastZ_eq q⟩⟩
  | room t z m he hp hg hf hm hrefs =>
    refine ⟨he.offset,fun y => ?_,fun q => ⟨he.marks_eq q,he.lastZ_eq q⟩⟩
    by_cases hy : y=z
    · subst hy
      simp only [setAlloc_metas,update_self,hm,hrefs,← he.metas,hf.free,and_self]
    · simp [hy,he.metas]
  | fresh => trivial

/-- For any calls of any processes, in any order: the allocations are consistent and disjoint, and
no call that fails consumes anything. -/
theorem serve_consistent (hr : r.Valid) (hs : s.Start) (calls : List (Call ι))
    (hc : ∀ c ∈ calls, c.Proper) :
    Consistent r (serve r calls s).1 (serve r calls s).2 ∧ ∀ c, Unconsumed r c (serve r calls s).1 := by
  obtain ⟨n,hb⟩ := hs.blocks.serve (r := r) hr hc
  exact ⟨hb.consistent,fun c => unconsumed (hb.mapped c.p)⟩

/-- Two processes that map a region of 256 bytes. -/
def pairRegion : Region (Fin 2) where
  size := 256
  base p := if p = 0 then 4096 else 8192
  alignment _ := 8
  pid p := 100 + p
  slotAddr p z := 65536 + 65536 * p + 160 * z

def firstProcess : Fin 2 := 0

def secondProcess : Fin 2 := 1

def cleared : Area (Fin 2) where
  offset := 0
  nmetas := 0
  metas _ := ⟨[], 0, 0, 0, 0⟩
  procs _ := ⟨fun _ => false, fun _ => false, 0⟩

/-- The second process shares an allocation of the first one, and asks for more alignment. -/
def pairCalls : List (Call (Fin 2)) :=
  [⟨0, fun _ => true, 0, 8, 8, some ['p']⟩, ⟨0, fun _ => true, 0, 8, 8, some ['a']⟩,
    ⟨1, fun _ => true, 0, 64, 8, some ['a']⟩, ⟨1, fun _ => true, 0, 64, 32, none⟩]

theorem pairRegion_valid : pairRegion.Valid where
  isPow _ := ⟨3,rfl⟩
  fits := by decide

theorem cleared_start : cleared.Start where
  offset := rfl
  free _ := rfl
  refCount _ := rfl
  marks _ _ := rfl
  mapped := Or.inl ⟨rfl,fun _ _ => rfl⟩

theorem pairCalls_proper : ∀ c ∈ pairCalls, c.Proper := by
  intro c hc
  simp only [pairCalls,List.mem_cons,List.not_mem_nil,or_false] at hc
  rcases hc with rfl | rfl | rfl | rfl
  · exact ⟨⟨3,rfl⟩,by decide⟩
  · exact ⟨⟨3,rfl⟩,by decide⟩
  · exact ⟨⟨6,rfl⟩,by decide⟩
  · exact ⟨⟨6,rfl⟩,by decide⟩

theorem serve_consistent_pair :
    Consistent pairRegion (serve pairRegion pairCalls cleared).1
        (serve pairRegion pairCalls cleared).2 ∧
      ∀ c, Unconsumed pairRegion c (serve pairRegion pairCalls cleared).1 :=
  serve_consistent pairRegion_valid cleared_start pairCalls pairCalls_proper

/-- The call that finds the allocation is given it as it is, not aligned as it asks. -/
theorem found_not_aligned :
    pairRegion.Valid ∧ cleared.Start ∧ (∀ c ∈ pairCalls, c.Proper) ∧
      ¬∀ g ∈ (serve pairRegion pairCalls cleared).2, g.call.alignment.toNat ∣ g.mem.toNat :=
  ⟨pairRegion_valid,cleared_start,pairCalls_proper,by decide⟩

end PAMI.Memory
