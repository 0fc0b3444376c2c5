import PAMI.Common.SubtractTopology

namespace PAMI.Common

open Math List

variable {m : Mapping} {n d : ℕ} {ll ur c c' : Coord}

namespace Topology

/-- `new` is the difference of `a` and `b`. -/
structure Subtracted (m : Mapping) (n : ℕ) (a b new : Topology) : Prop where
  member : ∀ r, new.Member m n r ↔ a.Member m n r ∧ ¬b.Member m n r
  size : new.numRanks = {r | a.Member m n r ∧ ¬b.Member m n r}.ncard

def Paired (a b : Topology) : Prop :=
  match a.type, b.type with
  | .COORD _ _, .COORD _ _ => True
  | .COORD _ _, _ | _, .COORD _ _ | .AXIAL _ _ _, _ | _, .AXIAL _ _ _ => False
  | _, _ => True

/-- When the result holds the ranks of the difference, each once: not for one rank and another kind;
not when the middle of a range is removed (unless the pointer that `_new` had leads to the ranks that
are left); for a list when no rank that is left is in it twice; and for the pairs that are not
implemented only when nothing is left. -/
def Subtractable (m : Mapping) (n : ℕ) (stale : ℕ → ℕ) (a b : Topology) : Prop :=
  match a.type, b.type with
  | .EMPTY, _ | .SINGLE _, .SINGLE _ | .COORD _ _, .COORD _ _ | .RANGE _ _, .SINGLE _ => True
  | .LIST ranklist, .SINGLE _ | .LIST ranklist, .LIST _ =>
    ∀ i < a.size, ∀ j < a.size, ranklist i = ranklist j → ¬b.Member m n (ranklist i) → i = j
  | .SINGLE _, _ => False
  | .RANGE first last, .RANGE first' last' => first < first' ∧ last' < last →
      ∀ r, (∃ i < first' - first + last - last', stale i = r ∧ r < n) ↔ first ≤ r ∧ r < first' ∨ last' < r ∧ r ≤ last
  | _, _ => ∀ r, a.Member m n r → b.Member m n r

/-- `_new` becomes a copy of `this`, with its flag for all contexts; otherwise it keeps its own. -/
def Copied (a b : Topology) : Prop :=
  match a.type, b.type with
  | .SINGLE rank, .SINGLE rank' => rank' ≠ rank
  | .RANGE first last, .SINGLE rank' => rank' < first ∨ last < rank'
  | .RANGE first last, .RANGE first' last' => last < first' ∨ last' < first
  | _, _ => False

/-- The size of a topology with the flag of `t` is that of its ranks, or nothing is left. -/
def CountsLeft (m : Mapping) (n : ℕ) (a b t : Topology) : Prop :=
  t.allContexts = false ∨ t.offset = 1 ∨ ∀ r, a.Member m n r → b.Member m n r

variable {a b new t : Topology} {rl : List ℕ}

theorem numRanks_iff (hs : t.size=rl.length) : t.numRanks=rl.toFinset.card ↔
    rl.Nodup ∧ (t.allContexts=false ∨ t.offset=1 ∨ rl = []) := by
  have hle := toFinset_card_le rl
  have hnod : rl.toFinset.card=rl.length ↔ rl.Nodup := by
    refine ⟨fun h => ?_,toFinset_card_of_nodup⟩
    rw [card_toFinset] at h
    exact dedup_eq_self.mp (rl.dedup_sublist.eq_of_length h)
  rw [numRanks,hs,← hnod]
  cases hall : t.allContexts with
  | false => simp [eq_comm]
  | true =>
    rw [if_pos rfl]
    by_cases hnil : rl = []
    · simp [hnil]
    · have hpos : 0 < rl.toFinset.card := Finset.card_pos.mpr (toFinset_nonempty_iff rl |>.mpr hnil)
      have htwo : 2≤t.offset → rl.length*2 ≤ rl.length*t.offset := Nat.mul_le_mul_left _
      rcases Nat.lt_trichotomy t.offset 1 with h | h | h
      · rw [show t.offset=0 by omega,mul_zero]
        simp only [hnil,zero_ne_one,reduceCtorEq,or_self,and_false,iff_false]
        omega
      · rw [h,mul_one]
        simp [eq_comm]
      · have := htwo h
        simp only [hnil,h.ne',reduceCtorEq,or_self,and_false,iff_false]
        omega

variable (new rl) in
theorem subtracted_iff (hal : new.allContexts=t.allContexts) (hof : new.offset=t.offset)
    (hs : new.size=rl.length) (hnew : ∀ r, new.Member m n r ↔ r ∈ rl)
    (hmem : ∀ r, r ∈ rl ↔ a.Member m n r ∧ ¬b.Member m n r) :
    Subtracted m n a b new ↔ rl.Nodup ∧ CountsLeft m n a b t := by
  have hset : {r | a.Member m n r ∧ ¬b.Member m n r} = (rl.toFinset : Set ℕ) := by
    ext r
    simp [hmem]
  have hemp : rl = [] ↔ ∀ r, a.Member m n r → b.Member m n r := by
    simp only [eq_nil_iff_forall_not_mem,hmem,not_and,Classical.not_not]
  rw [CountsLeft,← hemp,← hal,← hof,← numRanks_iff hs,← Set.ncard_coe_finset,← hset]
  exact ⟨fun h => h.size,fun h => ⟨fun r => (hnew r).trans (hmem r),h⟩⟩

theorem toEmpty_member (t : Topology) (r : ℕ) : ¬t.toEmpty.Member m n r := fun h => h.2

theorem subtracted_toEmpty : Subtracted m n a b new.toEmpty ↔ ∀ r, a.Member m n r → b.Member m n r := by
  constructor
  · intro h r hr
    by_contra hb
    exact toEmpty_member new r ((h.member r).2 ⟨hr,hb⟩)
  · intro h
    refine (subtracted_iff new.toEmpty [] rfl rfl rfl (fun r => ?_) fun r => ?_).mpr
      ⟨nodup_nil,.inr (.inr h)⟩
    · simpa using toEmpty_member new r
    · simpa using h r

theorem subtracted_empty (h : ∀ r, a.Member m n r → b.Member m n r) :
    Subtracted m n a b new.toEmpty ↔ CountsLeft m n a b t :=
  iff_of_true (subtracted_toEmpty.mpr h) (.inr (.inr h))

theorem toList_member {t : Topology} (hlt : ∀ r ∈ rl, r<n) (r : ℕ) :
    (t.toList rl).Member m n r ↔ r ∈ rl := by
  constructor
  · rintro ⟨-,i,hi,rfl⟩
    have hi : i < rl.length := hi
    simp only [getD_eq_getElem _ _ hi]
    exact getElem_mem hi
  · intro hr
    obtain ⟨i,hi,rfl⟩ := mem_iff_getElem.1 hr
    exact ⟨hlt _ hr,i,hi,getD_eq_getElem _ _ hi⟩

theorem toKept_member {t : Topology} (hlt : ∀ r ∈ rl, r<n) (r : ℕ) :
    (t.toKept rl).Member m n r ↔ r ∈ rl := by
  match rl with
  | [] => exact iff_of_false (toEmpty_member t r) (by simp)
  | [rank] =>
    have := hlt rank (mem_singleton_self rank)
    simp only [toKept,Member,List.mem_singleton]
    exact ⟨fun h => h.2,fun h => ⟨h ▸ this,h⟩⟩
  | r1 :: r2 :: rl => exact toList_member hlt r

theorem toKept_size (t : Topology) : (t.toKept rl).size=rl.length := by
  match rl with
  | [] => rfl
  | [rank] => rfl
  | r1 :: r2 :: rl => rfl

theorem toKept_flags (t : Topology) :
    (t.toKept rl).allContexts=t.allContexts ∧ (t.toKept rl).offset=t.offset := by
  match rl with
  | [] => exact ⟨rfl,rfl⟩
  | [rank] => exact ⟨rfl,rfl⟩
  | r1 :: r2 :: rl => exact ⟨rfl,rfl⟩

section

variable (hmem : ∀ r, r ∈ rl ↔ a.Member m n r ∧ ¬b.Member m n r)
include hmem

variable (new) in
theorem subtracted_toKept :
    Subtracted m n a b (new.toKept rl) ↔ rl.Nodup ∧ CountsLeft m n a b new :=
  subtracted_iff _ _ (toKept_flags new).1 (toKept_flags new).2 (toKept_size new)
    (toKept_member fun r hr => ((hmem r).1 hr).1.1) hmem

variable (new) in
theorem subtracted_toList :
    Subtracted m n a b (new.toList rl) ↔ rl.Nodup ∧ CountsLeft m n a b new :=
  subtracted_iff _ _ rfl rfl rfl (toList_member fun r hr => ((hmem r).1 hr).1.1) hmem

end

theorem subtracted_coord (hm : m.Bijective n) {ll ur ll' ur' : Coord}
    (hb : ∀ x < m.globalDims, ll x ≤ ur x ∧ ur x < m.torusSize x) (hat : a.type = .COORD ll ur)
    (hbt : b.type = .COORD ll' ur') :
    Subtracted m n a b (subtractCoord m new ((Box.mk ll ur).card m.globalDims) ll ur ll' ur') ↔
      CountsLeft m n a b new := by
  have hw := walk_ranks hm hb
  obtain ⟨hin,-⟩ := walkCoords_corner fun x hx => (hb x hx).1
  have hmach : ∀ c, (Box.mk ll ur).Inside m.globalDims c → ∀ x < m.globalDims,
      c x < m.torusSize x := fun c hc x hx => (hc x hx).2.trans_lt (hb x hx).2
  generalize hL : walkCoords ll ur m.globalDims ((Box.mk ll ur).card m.globalDims) ll=L at *
  generalize hkp : (L.filter fun c0 => !isMemberCoord ll' ur' c0 m.globalDims)=kept
  have hsub : ∀ c ∈ kept, c ∈ L ∧ (Box.mk ll ur).Inside m.globalDims c := fun c hc => by
    rw [← hkp] at hc
    exact ⟨mem_of_mem_filter hc,hin c (mem_of_mem_filter hc)⟩
  have hnod : (kept.map m.network2task).Nodup := hw.nodup.sublist (hkp ▸ filter_sublist.map _)
  have hmem : ∀ r, r ∈ kept.map m.network2task ↔ a.Member m n r ∧ ¬b.Member m n r := by
    intro r
    simp only [Member,hat,hbt]
    constructor
    · intro hr
      obtain ⟨c,hc,rfl⟩ := mem_map.1 hr
      have hra := (hw.mem _).1 (mem_map_of_mem (f := m.network2task) (hsub c hc).1)
      refine ⟨hra,fun hrb => ?_⟩
      rw [← hkp,mem_filter,Bool.not_eq_true',← Bool.not_eq_true] at hc
      refine hc.2 (isMemberCoord_iff.2 fun x hx => ?_)
      rw [← hm.right c (hmach c (hin c hc.1)) x hx]
      exact hrb.2 x hx
    · rintro ⟨hra,hrb⟩
      obtain ⟨c,hc,rfl⟩ := mem_map.1 ((hw.mem r).2 hra)
      refine mem_map_of_mem ?_
      rw [← hkp,mem_filter,Bool.not_eq_true',← Bool.not_eq_true]
      refine ⟨hc,fun hcb => hrb ⟨hra.1,fun x hx => ?_⟩⟩
      rw [hm.right c (hmach c (hin c hc)) x hx]
      exact isMemberCoord_iff.1 hcb x hx
  unfold subtractCoord
  simp only [hL,hkp]
  split_ifs with h0 hbox hrng
  · refine subtracted_empty fun r hr => ?_
    by_contra hrb
    have := (hmem r).2 ⟨hr,hrb⟩
    rw [length_eq_zero_iff.1 h0] at this
    cases this
  · have hbump := fun x => foldl_bumpRange kept (ll, ll) x le_rfl
    rw [sizeRange_eq] at hbox
    generalize kept.foldl bumpRange (ll, ll)=lu at hbox hbump ⊢
    have hcrn (x : ℕ) (hx : x < m.globalDims) : lu.1 x ≤ lu.2 x ∧ lu.2 x < m.torusSize x := by
      have hx' := hb x hx
      have hin' := (hbump x).2.2.2 (ll x) (ur x) le_rfl hx'.1 fun c hc => (hsub c hc).2 x hx
      have hlow : lu.1 x ≤ ll x := (hbump x).1
      have hupp : ll x ≤ lu.2 x := (hbump x).2.1
      omega
    have hine : ∀ r ∈ kept.map m.network2task, r<n ∧ (Box.mk lu.1 lu.2).Inside m.globalDims (m.task2network r) := by
      intro r hr
      refine ⟨((hmem r).1 hr).1.1,fun x hx => ?_⟩
      obtain ⟨c,hc,rfl⟩ := mem_map.1 hr
      rw [hm.right c (hmach c (hsub c hc).2) x hx]
      exact (hbump x).2.2.1 c hc
    have hcou := (coord_ncard hm hcrn).1.trans hbox
    have hcov := (covers_iff_nodup below_finite hine hcou).2 hnod
    exact (subtracted_iff (t := new) { new with type := .COORD lu.1 lu.2, size := _ } _
      rfl rfl rfl hcov hmem).trans (and_iff_right hnod)
  · rw [foldl_min_zero] at hrng ⊢
    have hmax := le_foldl_max (kept.map m.network2task) 0
    generalize (kept.map m.network2task).foldl max 0=hi at hrng hmax ⊢
    refine (subtracted_iff _ _ rfl rfl rfl (fun r => ⟨fun hr => ?_,fun hr => ?_⟩) hmem).trans (and_iff_right hnod)
    · refine mem_of_count hnod (fun i hi' => ?_) rfl ?_
      · have := hmax.2 i hi'
        omega
      · have : r≤hi := hr.2.2
        omega
    · exact ⟨((hmem r).1 hr).1.1,Nat.zero_le _,hmax.2 r hr⟩
  · exact (subtracted_toList _ hmem).trans (and_iff_right hnod)

section Pairs

variable {stale ranklist : ℕ → ℕ} {rank first last first' last' : ℕ}

theorem not_subtracted_single (hat : a.type = .SINGLE rank) (hr : rank<n)
    (hb : ∀ ll ur center, b.type ≠ .AXIAL ll ur center) :
    ¬Subtracted m n a b (if b.isRankMember m rank then { new with type := .SINGLE rank, size := 1 }
      else new.toEmpty) := by
  have hra : a.Member m n rank := by rw [Member,hat]; exact ⟨hr,rfl⟩
  intro h
  split at h
  · rename_i hmem
    have hnew := (h.member rank).1 ⟨hr,rfl⟩
    exact hnew.2 ((isRankMember_iff hr hb).1 hmem)
  · rename_i hmem
    refine toEmpty_member new rank ((h.member rank).2 ⟨hra,fun hrb => hmem ?_⟩)
    exact (isRankMember_iff hr hb).2 hrb

def leftRanks (first last first' last' : ℕ) : List ℕ :=
  List.range' first (first' - first) ++ List.range' (last' + 1) (last - last')

theorem mem_leftRanks (hf : first≤first') (hf' : first'≤last') (hl : last'≤last) (r : ℕ) :
    r ∈ leftRanks first last first' last' ↔ (first ≤ r ∧ r≤last) ∧ ¬(first' ≤ r ∧ r≤last') := by
  simp only [leftRanks,mem_append,mem_range'_1]
  omega

theorem leftRanks_nodup (hf : first≤first') (hf' : first'≤last') :
    (leftRanks first last first' last').Nodup := by
  refine List.Nodup.append nodup_range' nodup_range' ?_
  intro r h1 h2
  simp only [mem_range'_1] at h1 h2
  omega

theorem listRanks_nodup {k : ℕ} {p : ℕ → Bool} : (((List.range k).map ranklist).filter p).Nodup ↔
    ∀ i<k, ∀ j<k, ranklist i = ranklist j → p (ranklist i) = true → i=j := by
  rw [filter_map,nodup_map_iff_inj_on (nodup_range.filter _)]
  simp only [mem_filter,List.mem_range,Function.comp_apply]
  exact ⟨fun h i hi j hj he hp => h i ⟨hi,hp⟩ j ⟨hj,he ▸ hp⟩ he,
    fun h i hi j hj he => h i hi.1 j hj.1 he hi.2⟩

theorem list_member (ht : a.type = .LIST ranklist) (hlt : ∀ i<a.size, ranklist i < n) (r : ℕ) :
    a.Member m n r ↔ r ∈ (List.range a.size).map ranklist := by
  simp only [Member,ht,mem_map,List.mem_range]
  exact ⟨fun h => h.2,fun h => ⟨by obtain ⟨i,hi,rfl⟩ := h; exact hlt i hi,h⟩⟩

theorem subtracted_self (ha : a.WellFormed m n) (hd : ∀ r, a.Member m n r → ¬b.Member m n r)
    (hc : Copied a b) : Subtracted m n a b a ↔ CountsLeft m n a b a := by
  have hranks : ∃ rl : List ℕ, rl.Nodup ∧ a.size=rl.length ∧ ∀ r, a.Member m n r ↔ r ∈ rl := by
    unfold WellFormed at ha
    cases hat : a.type with
    | SINGLE rank =>
      rw [hat] at ha
      refine ⟨[rank],nodup_singleton rank,ha.1,fun r => ?_⟩
      simp only [Member,hat,List.mem_singleton]
      exact ⟨fun h => h.2,fun h => ⟨h ▸ ha.2,h⟩⟩
    | RANGE first last =>
      rw [hat] at ha
      refine ⟨List.range' first (last-first+1),nodup_range',by simp [ha.2.2],fun r => ?_⟩
      simp only [Member,hat,mem_range'_1]
      omega
    | _ => simp [Copied,hat] at hc
  obtain ⟨rl,hn,hs,hmem⟩ := hranks
  refine (subtracted_iff _ _ rfl rfl hs hmem fun r => ?_).trans (and_iff_right hn)
  rw [← hmem]
  exact ⟨fun h => ⟨h,hd r h⟩,fun h => h.1⟩

/-- What `subtract_iff` says when the result is a copy, and when it is not. -/
theorem counts_copied {p : Prop} (hc : Copied a b) (h : Subtracted m n a b t ↔ p ∧ CountsLeft m n a b a) :
    Subtracted m n a b t ↔ p ∧ (Copied a b → CountsLeft m n a b a) ∧ (¬Copied a b → CountsLeft m n a b new) :=
  h.trans (and_congr_right fun _ => ⟨fun hx => ⟨fun _ => hx,fun hn => absurd hc hn⟩,fun hx => hx.1 hc⟩)

theorem counts_new {p : Prop} (hc : ¬Copied a b) (h : Subtracted m n a b t ↔ p ∧ CountsLeft m n a b new) :
    Subtracted m n a b t ↔ p ∧ (Copied a b → CountsLeft m n a b a) ∧ (¬Copied a b → CountsLeft m n a b new) :=
  h.trans (and_congr_right fun _ => ⟨fun hx => ⟨fun hn => absurd hn hc,fun _ => hx⟩,fun hx => hx.2 hc⟩)

/-- The middle of a range is removed: the result has the ranks that its list pointer happens to lead to. -/
theorem subtracted_middle (new : Topology) (stale : ℕ → ℕ) (hma : ∀ r, a.Member m n r ↔ first ≤ r ∧ r≤last)
    (hmb : ∀ r, b.Member m n r ↔ first' ≤ r ∧ r≤last') (hlow : first<first') (hfl : first'≤last') (hhg : last'<last) :
    Subtracted m n a b { new with type := .LIST stale, size := first'-first+last-last' } ↔
      (∀ r, (∃ i<first'-first+last-last', stale i = r ∧ r<n) ↔ first ≤ r ∧ r<first' ∨ last' < r ∧ r≤last) ∧
        CountsLeft m n a b new := by
  have hleft (r : ℕ) : r ∈ leftRanks first last first' last' ↔ a.Member m n r ∧ ¬b.Member m n r := by
    rw [mem_leftRanks hlow.le hfl hhg.le,hma,hmb]
  have hmem (r : ℕ) : (∃ i<first'-first+last-last', stale i=r ∧ r<n) ↔
      ({ new with type := .LIST stale, size := first'-first+last-last' } : Topology).Member m n r := by
    simp only [Member]
    constructor
    · rintro ⟨i,hi,rfl,hr⟩
      exact ⟨hr,i,hi,rfl⟩
    · rintro ⟨hr,i,hi,rfl⟩
      exact ⟨i,hi,rfl,hr⟩
  have hiff (r : ℕ) : first ≤ r ∧ r<first' ∨ last' < r ∧ r≤last ↔ r ∈ leftRanks first last first' last' := by
    rw [hleft,hma,hmb]
    omega
  have hsi : first'-first+last-last'=(leftRanks first last first' last').length := by
    simp only [leftRanks,length_append,length_range']
    omega
  simp only [hmem,hiff]
  constructor
  · intro h
    have hnew (r : ℕ) := (h.member r).trans (hleft r).symm
    exact ⟨hnew,((subtracted_iff _ _ rfl rfl hsi hnew hleft).mp h).2⟩
  · rintro ⟨hnew,hcl⟩
    exact (subtracted_iff _ _ rfl rfl hsi hnew hleft).mpr ⟨leftRanks_nodup hlow.le hfl,hcl⟩

theorem subtracted_range (new : Topology) (stale : ℕ → ℕ) (ha : a.WellFormed m n) (hb : b.WellFormed m n)
    (hat : a.type = .RANGE first last) (hbt : b.type = .RANGE first' last') :
    Subtracted m n a b (subtractRange stale new a first last first' last') ↔ Subtractable m n stale a b ∧
      (Copied a b → CountsLeft m n a b a) ∧ (¬Copied a b → CountsLeft m n a b new) := by
  have ha' := ha
  have hb' := hb
  rw [WellFormed,hat] at ha'
  rw [WellFormed,hbt] at hb'
  obtain ⟨hfl,hln,-⟩ := ha'
  obtain ⟨hfl',hln',-⟩ := hb'
  have hma : ∀ r, a.Member m n r ↔ first ≤ r ∧ r≤last := fun r => by rw [Member,hat]; simp only; omega
  have hmb : ∀ r, b.Member m n r ↔ first' ≤ r ∧ r≤last' := fun r => by rw [Member,hbt]; simp only; omega
  have hcp : Copied a b ↔ last<first' ∨ last'<first := by rw [Copied,hat,hbt]
  have hwh {p q q' : Prop} (hp : p) (h : q ↔ q') : q ↔ p ∧ q' := h.trans (and_iff_right hp).symm
  have hrng {lo hi : ℕ} (hlo : lo≤hi) (hhi : hi<n)
      (hmem : ∀ r, lo ≤ r ∧ r≤hi ↔ a.Member m n r ∧ ¬b.Member m n r) :
      Subtracted m n a b { new with type := .RANGE lo hi, size := hi-lo+1 } ↔ CountsLeft m n a b new := by
    refine (subtracted_iff _ (List.range' lo (hi-lo+1)) rfl rfl (by simp) (fun r => ?_)
      fun r => ?_).trans (and_iff_right nodup_range')
    · simp only [Member,mem_range'_1]; omega
    · rw [← hmem,mem_range'_1]; omega
  have hself (hout : last<first' ∨ last'<first) : Subtracted m n a b a ↔ CountsLeft m n a b a :=
    subtracted_self ha (fun r => by rw [hma,hmb]; omega) (hcp.mpr hout)
  simp only [Subtractable,hat,hbt]
  unfold subtractRange
  by_cases h1 : first'≤first
  · by_cases h2 : first≤last'
    · by_cases h4 : last≤last'
      · -- all of the range is removed
        have ho : overlap first last first' last'=15 := by simp [overlap,h1,h2,h4,hfl.trans' h1]
        simp only [ho]
        refine counts_new (by rw [hcp]; omega) (hwh (fun h => by omega) (subtracted_empty fun r hr => ?_))
        rw [hma] at hr
        rw [hmb]
        omega
      · have ho : overlap first last first' last'=14 := by simp [overlap,h1,h2,h4,hfl.trans' h1]
        simp only [ho]
        refine counts_new (by rw [hcp]; omega) (hwh (fun h => by omega) (hrng (by omega) hln fun r => ?_))
        rw [hma,hmb]
        omega
    · have h4 : ¬last≤last' := by omega
      have ho : overlap first last first' last'=10 := by simp [overlap,h1,h2,h4,hfl.trans' h1]
      simp only [ho]
      exact counts_copied (hcp.mpr (by omega)) (hwh (fun h => by omega) (hself (by omega)))
  · by_cases h3 : first'≤last
    · have h2 : first≤last' := by omega
      by_cases h4 : last≤last'
      · have ho : overlap first last first' last'=7 := by simp [overlap,h1,h2,h3,h4]
        simp only [ho]
        refine counts_new (by rw [hcp]; omega) (hwh (fun h => by omega) (hrng (by omega) (by omega) fun r => ?_))
        rw [hma,hmb]
        omega
      · have ho : overlap first last first' last'=6 := by simp [overlap,h1,h2,h3,h4]
        simp only [ho]
        rw [forall_prop_of_true ⟨by omega,by omega⟩]
        exact counts_new (by rw [hcp]; omega) (subtracted_middle new stale hma hmb (by omega) hfl' (by omega))
    · have h2 : first≤last' := by omega
      have h4 : last≤last' := by omega
      have ho : overlap first last first' last'=5 := by simp [overlap,h1,h2,h3,h4]
      simp only [ho]
      exact counts_copied (hcp.mpr (by omega)) (hwh (fun h => by omega) (hself (by omega)))

theorem subtracted_range_single (ha : a.WellFormed m n) (hb : b.WellFormed m n)
    (hat : a.type = .RANGE first last) (hbt : b.type = .SINGLE rank) :
    Subtracted m n a b (if a.isRankMember m rank then
      new.toKept (List.range' first (rank-first) ++ List.range' (rank+1) (last-rank))
      else a) ↔ True ∧ (Copied a b → CountsLeft m n a b a) ∧ (¬Copied a b → CountsLeft m n a b new) := by
  have ha' := ha
  have hb' := hb
  rw [WellFormed,hat] at ha'
  rw [WellFormed,hbt] at hb'
  have hmb : ∀ r, b.Member m n r ↔ r=rank := fun r => by
    simp only [Member,hbt]
    exact ⟨fun h => h.2,fun h => ⟨h ▸ hb'.2,h⟩⟩
  have hmem := isRankMember_iff (m := m) (t := a) hb'.2 (by simp [hat])
  have hma : a.Member m n rank ↔ first ≤ rank ∧ rank≤last := by
    rw [Member,hat]
    exact and_iff_right hb'.2
  have hcp : Copied a b ↔ rank<first ∨ last < rank := by rw [Copied,hat,hbt]
  split
  · rename_i h
    rw [hmem,hma] at h
    refine counts_new (by rw [hcp]; omega) ((subtracted_toKept _ fun r => ?_).trans
      (by rw [true_and]; exact and_iff_right (leftRanks_nodup h.1 le_rfl)))
    rw [show List.range' first (rank-first) ++ List.range' (rank+1) (last-rank) =
      leftRanks first last rank rank from rfl,mem_leftRanks h.1 le_rfl h.2,hmb]
    simp only [Member,hat]
    omega
  · rename_i h
    rw [hmem,hma] at h
    have hc : Copied a b := hcp.mpr (by omega)
    refine counts_copied hc ((subtracted_self ha (fun r hr hrb => ?_) hc).trans (and_iff_right trivial).symm)
    rw [hmb] at hrb
    exact h (hma.mp (hrb ▸ hr))

theorem mem_filter_list (ha : a.WellFormed m n) (hat : a.type = .LIST ranklist) {p : ℕ → Bool}
    (hp : ∀ r<n, p r = true ↔ ¬b.Member m n r) (r : ℕ) :
    r ∈ ((List.range a.size).map ranklist).filter p ↔ a.Member m n r ∧ ¬b.Member m n r := by
  rw [WellFormed,hat] at ha
  rw [mem_filter,← list_member hat ha]
  exact and_congr_right fun h => hp r h.1

theorem kept_nodup (ha : a.WellFormed m n) (hat : a.type = .LIST ranklist) {p : ℕ → Bool}
    (hp : ∀ r<n, p r = true ↔ ¬b.Member m n r) : (((List.range a.size).map ranklist).filter p).Nodup ↔
      ∀ i<a.size, ∀ j<a.size, ranklist i = ranklist j → ¬b.Member m n (ranklist i) → i=j := by
  rw [WellFormed,hat] at ha
  rw [listRanks_nodup]
  exact forall₂_congr fun i hi => by rw [hp _ (ha i hi)]

/-- The result is the difference exactly when the pair is subtractable and the flag that the result
has makes it count ranks. -/
theorem subtract_iff (hm : m.Bijective n) (ha : a.WellFormed m n) (hb : b.WellFormed m n) (hp : Paired a b) :
    Subtracted m n a b (subtractTopology m stale new a b) ↔ Subtractable m n stale a b ∧
      (Copied a b → CountsLeft m n a b a) ∧ (¬Copied a b → CountsLeft m n a b new) := by
  have ha' := ha
  have hb' := hb
  unfold WellFormed at ha' hb'
  have hemp : Subtracted m n a b new.toEmpty ↔
      (∀ r, a.Member m n r → b.Member m n r) ∧ CountsLeft m n a b new :=
    subtracted_toEmpty.trans ⟨fun h => ⟨h,.inr (.inr h)⟩,And.left⟩
  unfold subtractTopology Subtractable
  unfold Paired at hp
  cases hat : a.type with
  | EMPTY =>
    have hall : ∀ r, a.Member m n r → b.Member m n r := fun r hr => by
      rw [Member,hat] at hr; exact hr.2.elim
    cases hbt : b.type <;> simp only [hat,hbt] at hp ⊢ <;>
      exact counts_new (by simp [Copied,hat]) ((subtracted_empty hall).trans (and_iff_right trivial).symm)
  | SINGLE rank =>
    rw [hat] at ha'
    cases hbt : b.type with
    | SINGLE rank' =>
      simp only
      split
      · rename_i h
        have hc : Copied a b := by rw [Copied,hat,hbt]; exact h
        refine counts_copied hc ((subtracted_self ha (fun r hr hrb => ?_) hc).trans (and_iff_right trivial).symm)
        simp only [Member,hat,hbt] at hr hrb
        exact h (hrb.2.symm.trans hr.2)
      · rename_i h
        refine counts_new (by rw [Copied,hat,hbt]; exact h)
          ((subtracted_empty fun r hr => ?_).trans (and_iff_right trivial).symm)
        simp only [Member,hat,hbt] at hr ⊢
        exact ⟨hr.1,hr.2.trans (not_not.1 h).symm⟩
    | EMPTY | RANGE first' last' | LIST ranklist' =>
      exact iff_of_false (not_subtracted_single hat ha'.2 (by simp [hbt])) And.left
    | COORD ll' ur' | AXIAL ll' ur' center' => simp [hat,hbt] at hp
  | RANGE first last =>
    cases hbt : b.type with
    | SINGLE rank' => exact subtracted_range_single ha hb hat hbt
    | RANGE first' last' =>
      have := subtracted_range new stale ha hb hat hbt
      simpa only [Subtractable,hat,hbt] using this
    | EMPTY | LIST ranklist' => exact counts_new (by simp [Copied,hat,hbt]) hemp
    | COORD ll' ur' | AXIAL ll' ur' center' => simp [hat,hbt] at hp
  | LIST ranklist =>
    cases hbt : b.type with
    | SINGLE rank' =>
      rw [hbt] at hb'
      have hkp : ∀ r<n, decide (r≠rank')=true ↔ ¬b.Member m n r := fun r hr => by simp [Member,hbt,hr]
      have hiff := subtracted_toKept new (mem_filter_list ha hat hkp)
      rw [kept_nodup ha hat hkp] at hiff
      exact counts_new (by simp [Copied,hat]) hiff
    | LIST ranklist' =>
      have hkp : ∀ r<n, (!b.isRankMember m r)=true ↔ ¬b.Member m n r := fun r hr => by
        rw [Bool.not_eq_true',← Bool.not_eq_true,isRankMember_iff hr (by simp [hbt])]
      have hmem := mem_filter_list ha hat hkp
      have hiff := subtracted_toList new hmem
      refine counts_new (by simp [Copied,hat]) ?_
      simp only
      rw [← kept_nodup ha hat hkp]
      split
      · rename_i h
        rw [length_eq_zero_iff.1 h] at hmem ⊢
        refine (subtracted_empty fun r hr => ?_).trans (and_iff_right nodup_nil).symm
        by_contra hrb
        cases (hmem r).2 ⟨hr,hrb⟩
      · exact hiff
    | EMPTY | RANGE first' last' => exact counts_new (by simp [Copied,hat]) hemp
    | COORD ll' ur' | AXIAL ll' ur' center' => simp [hat,hbt] at hp
  | COORD ll ur =>
    rw [hat] at ha'
    cases hbt : b.type with
    | COORD ll' ur' =>
      simp only [ha'.2]
      exact counts_new (by simp [Copied,hat]) ((subtracted_coord hm ha'.1 hat hbt).trans (and_iff_right trivial).symm)
    | _ => simp [hat,hbt] at hp
  | AXIAL ll ur center =>
    cases hbt : b.type <;> simp [hat,hbt] at hp

end Pairs

def line : Mapping where
  globalDims := 1
  torusSize _ := 16
  task2network r _ := r
  network2task c := c 0

theorem line_bijective : line.Bijective 16 where
  small := by decide
  coords r hr _ _ := hr
  task c hc := hc 0 one_pos
  injective r _ r' _ h := h 0 one_pos
  right c _ x hx := by
    obtain rfl : x=0 := Nat.lt_one_iff.1 hx
    rfl

def ofRange (first last : ℕ) : Topology := ⟨.RANGE first last, last - first + 1, 0, false⟩

theorem ofRange_wellFormed {first last : ℕ} (h : first≤last) (hl : last<n) :
    (ofRange first last).WellFormed m n := ⟨h,hl,rfl⟩

theorem subtract_iff_top :
    Subtracted line 16 (ofRange 0 9) (ofRange 5 12)
      (subtractTopology line (fun _ => 0) ⟨.EMPTY, 0, 0, false⟩ (ofRange 0 9) (ofRange 5 12)) :=
  (subtract_iff line_bijective (ofRange_wellFormed (by decide) (by decide))
    (ofRange_wellFormed (by decide) (by decide)) trivial).2
    ⟨fun h => absurd h.2 (by decide),fun _ => .inl rfl,fun _ => .inl rfl⟩

/-- Of a range without its middle nothing is left, with a pointer to cleared memory; and of a single
rank minus nothing. -/
theorem middle_lost :
    ¬Subtracted line 16 (ofRange 0 9) (ofRange 3 5)
        (subtractTopology line (fun _ => 0) ⟨.EMPTY, 0, 0, false⟩ (ofRange 0 9) (ofRange 3 5)) ∧
      ¬Subtracted line 16 ⟨.SINGLE 3, 1, 0, false⟩ ⟨.EMPTY, 0, 0, false⟩
        (subtractTopology line (fun _ => 0) ⟨.EMPTY, 0, 0, false⟩ ⟨.SINGLE 3, 1, 0, false⟩ ⟨.EMPTY, 0, 0, false⟩) := by
  constructor
  · intro h
    have hmem := (h.member 1).2
      ⟨⟨by decide,Nat.zero_le _,by decide⟩,fun hb => absurd hb.2.1 (by decide)⟩
    obtain ⟨-,i,-,hi⟩ := hmem
    exact absurd hi Nat.zero_ne_one
  · intro h
    exact ((h.member 3).2 ⟨⟨by decide,rfl⟩,fun hb => hb.2⟩).2

end Topology

end PAMI.Common
