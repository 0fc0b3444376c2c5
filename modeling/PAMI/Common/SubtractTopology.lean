import Mathlib.Data.List.GetD
import Mathlib.Data.Set.Card
import PAMI.Common.Topology

namespace PAMI.Common

open PAMI.Math.Box List Set

/-- The coordinates that a loop over `__nextCoord` visits from `c0` on, at most `n`. -/
def walkCoords (ll ur : Coord) (ndims : ℕ) : ℕ → Coord → List Coord
  | 0, _ => []
  | n + 1, c0 =>
    match nextCoord ll ur ndims c0 with
    | (true, c) => c0 :: walkCoords ll ur ndims n c
    | (false, _) => [c0]

def bumpRange (lu : Coord × Coord) (c0 : Coord) : Coord × Coord := (fun x => if c0 x < lu.1 x then c0 x else lu.1 x,
    fun x => if c0 x < lu.1 x then lu.2 x else if lu.2 x < c0 x then c0 x else lu.2 x)

def sizeRange (ll ur : Coord) (ndims : ℕ) : ℕ := (List.range ndims).foldl (fun s x => s * (ur x - ll x + 1)) 1

namespace Topology

variable (m : Mapping)

/-- `_new` as an empty topology. -/
def toEmpty (t : Topology) : Topology := { t with type := .EMPTY, size := 0 }

/-- `_new` as the list of the ranks that were kept. -/
def toList (t : Topology) (rl : List ℕ) : Topology :=
  { t with type := .LIST fun i => rl.getD i 0, size := rl.length }

/-- The end of the cases that remove one rank: nothing, one or a list is left. -/
def toKept (t : Topology) (rl : List ℕ) : Topology :=
  match rl with
  | [] => t.toEmpty
  | [rank] => { t with type := .SINGLE rank, size := 1 }
  | _ => t.toList rl

/-- A rectangle segment minus a rectangle segment. The loop visits `__size` coordinates, for which it
has allocated the list. -/
def subtractCoord (new : Topology) (size : ℕ) (ll ur ll' ur' : Coord) : Topology :=
  let kept := (walkCoords ll ur m.globalDims size ll).filter fun c0 => !isMemberCoord ll' ur' c0 m.globalDims
  let rl := kept.map m.network2task
  let lu := kept.foldl bumpRange (ll, ll)
  let min := rl.foldl min 0
  let max := rl.foldl max 0
  if rl.length = 0 then new.toEmpty
  else if sizeRange lu.1 lu.2 m.globalDims = rl.length then
    { new with type := .COORD lu.1 lu.2, size := rl.length }
  else if max - min + 1 = rl.length then { new with type := .RANGE min max, size := rl.length }
  else new.toList rl

def overlap (first last first' last' : ℕ) : ℕ :=
  8 * (decide (first' ≤ first)).toNat + 4 * (decide (first ≤ last')).toNat +
    2 * (decide (first' ≤ last)).toNat + (decide (last ≤ last')).toNat

/-- A range minus a range. When the middle is removed (`b0110`) the rank list is filled but not put
into `_new`, which keeps the pointer it had, to `stale`. -/
def subtractRange (stale : ℕ → ℕ) (new this : Topology) (first last first' last' : ℕ) : Topology :=
  match overlap first last first' last' with
  | 6 => { new with type := .LIST stale, size := first' - first + last - last' }
  | 7 => { new with type := .RANGE first (first' - 1), size := first' - 1 - first + 1 }
  | 14 => { new with type := .RANGE (last' + 1) last, size := last - (last' + 1) + 1 }
  | 15 => new.toEmpty
  | _ => this

/-- `subtractTopology`: what `_new` becomes. -/
def subtractTopology (stale : ℕ → ℕ) (new this other : Topology) : Topology :=
  match this.type, other.type with
  | .COORD ll ur, .COORD ll' ur' => subtractCoord m new this.size ll ur ll' ur'
  | .SINGLE rank, .SINGLE rank' => if rank' ≠ rank then this else new.toEmpty
  | .RANGE first last, .RANGE first' last' => subtractRange stale new this first last first' last'
  | .LIST ranklist, .LIST _ =>
    let rl := ((List.range this.size).map ranklist).filter fun r => !other.isRankMember m r
    if rl.length = 0 then new.toEmpty else new.toList rl
  | .SINGLE rank, _ =>
    if other.isRankMember m rank then { new with type := .SINGLE rank, size := 1 }
    else new.toEmpty
  | .COORD ll ur, .SINGLE rank' =>
    if this.isRankMember m rank' then
      new.toKept (((walkCoords ll ur m.globalDims this.size ll).map m.network2task).filter fun r => r ≠ rank')
    else this
  | .RANGE first last, .SINGLE rank' =>
    if this.isRankMember m rank' then
      new.toKept (List.range' first (rank' - first) ++ List.range' (rank' + 1) (last - rank'))
    else this
  | .LIST ranklist, .SINGLE rank' => new.toKept (((List.range this.size).map ranklist).filter fun r => r ≠ rank')
  | _, _ => new.toEmpty

end Topology

open Math Function

variable {m : Mapping} {n d : ℕ} {ll ur c c' : Coord}

section Walk

theorem nextCoord_spec (h : (mk ll ur).Inside d c) :
    match nextCoord ll ur d c with
    | (true, c') => (mk ll ur).Inside d c' ∧
        (mk ll ur).encode c' d = (mk ll ur).encode c d+1 ∧ ∀ x, d≤x → c' x = c x
    | (false, _) => (mk ll ur).encode c d+1 = (mk ll ur).card d := by
  induction d generalizing c with
  | zero => rfl
  | succ d ih =>
    have hd := h d (by omega)
    simp only at hd
    rw [nextCoord]
    by_cases hc : c d+1 ≤ ur d
    · rw [if_pos hc]
      refine ⟨fun x hx => ?_,?_,fun x hx => update_of_ne (by omega) _ _⟩
      · by_cases hxd : x=d
        · subst hxd; simp only [update_self]; omega
        · rw [update_of_ne hxd]; exact h x (by omega)
      · have hrs : (mk ll ur).encode (update c d (c d+1)) d = (mk ll ur).encode c d :=
          encode_congr fun x hx => update_of_ne (by omega) _ _
        rw [encode,encode,hrs,update_self]
        simp only
        omega
    · rw [if_neg hc]
      have hrs : (mk ll ur).encode (update c d (ll d)) d = (mk ll ur).encode c d :=
        encode_congr fun x hx => update_of_ne (by omega) _ _
      have hin : (mk ll ur).Inside d (update c d (ll d)) := fun x hx => by
        rw [update_of_ne (by omega)]; exact h x (by omega)
      have hla : (mk ll ur).width d = c d-ll d+1 := by simp only [width]; omega
      have hi := ih hin
      rw [hrs] at hi
      generalize nextCoord ll ur d (update c d (ll d))=res at hi
      obtain ⟨b,c'⟩ := res
      cases b with
      | true =>
        obtain ⟨h1,h2,h3⟩ := hi
        have hcd : c' d = ll d := by rw [h3 d le_rfl,update_self]
        refine ⟨fun x hx => ?_,?_,fun x hx => ?_⟩
        · by_cases hxd : x=d
          · subst hxd; simp only [hcd]; omega
          · exact h1 x (by omega)
        · rw [encode,encode,h2,hcd,hla,add_mul]
          simp only
          omega
        · rw [h3 x (by omega),update_of_ne (by omega)]
      | false =>
        rw [encode,card,← hi,hla,add_mul]
        simp only
        omega

theorem walkCoords_spec (k : ℕ) (h : (mk ll ur).Inside d c)
    (hk : (mk ll ur).encode c d+k = (mk ll ur).card d) :
    (∀ c' ∈ walkCoords ll ur d k c, (mk ll ur).Inside d c') ∧
      (walkCoords ll ur d k c).map (fun c' => (mk ll ur).encode c' d) = List.range' ((mk ll ur).encode c d) k := by
  induction k generalizing c with
  | zero => exact ⟨fun c' hc' => (by cases hc'),rfl⟩
  | succ k ih =>
    have hn := nextCoord_spec h
    rw [walkCoords]
    generalize nextCoord ll ur d c=res at hn
    obtain ⟨b,c'⟩ := res
    cases b with
    | true =>
      obtain ⟨h1,h2,-⟩ := hn
      obtain ⟨h3,h4⟩ := ih h1 (by omega)
      refine ⟨?_,?_⟩
      · intro c'' hc''
        rcases List.mem_cons.1 hc'' with rfl | hc''
        · exact h
        · exact h3 c'' hc''
      · simp only [List.map_cons,h4,h2,range'_succ]
    | false =>
      obtain rfl : k=0 := by omega
      refine ⟨?_,rfl⟩
      intro c'' hc''
      rw [List.mem_singleton.1 hc'']
      exact h

theorem walkCoords_corner (h : ∀ x<d, ll x ≤ ur x) :
    (∀ c ∈ walkCoords ll ur d ((mk ll ur).card d) ll, (mk ll ur).Inside d c) ∧
      (walkCoords ll ur d ((mk ll ur).card d) ll).map
          (fun c => (mk ll ur).encode c d) = List.range' 0 ((mk ll ur).card d) := by
  have hll : (mk ll ur).Inside d ll := fun x hx => ⟨le_rfl,h x hx⟩
  have hzr : (mk ll ur).encode ll d=0 := encode_corner d
  have hw := walkCoords_spec ((mk ll ur).card d) hll (by omega)
  rwa [hzr] at hw

end Walk

section Ranks

variable {ll' ur' : Coord} {size r : ℕ} {rl : List ℕ}

theorem mem_of_count {l : List ℕ} {k : ℕ} (hn : l.Nodup) (hlt : ∀ i ∈ l, i<k)
    (hk : l.length=k) {i : ℕ} (hi : i<k) : i ∈ l := by
  have hsub : l.toFinset ⊆ Finset.range k := fun i hi => Finset.mem_range.2 (hlt i (List.mem_toFinset.1 hi))
  have hcard : (Finset.range k).card≤l.toFinset.card := by rw [toFinset_card_of_nodup hn,hk,Finset.card_range]
  rw [← List.mem_toFinset,Finset.eq_of_subset_of_card_le hsub hcard]
  exact Finset.mem_range.2 hi

structure Walk (m : Mapping) (n : ℕ) (ll ur : Coord) (rl : List ℕ) : Prop where
  nodup : rl.Nodup
  mem : ∀ r, r ∈ rl ↔ r < n ∧ (mk ll ur).Inside m.globalDims (m.task2network r)

section

variable (hm : m.Bijective n) (hb : ∀ x < m.globalDims, ll x ≤ ur x ∧ ur x < m.torusSize x)
include hm hb

theorem walk_ranks : Walk m n ll ur ((walkCoords ll ur m.globalDims ((mk ll ur).card m.globalDims) ll).map
      m.network2task) := by
  obtain ⟨hin,hmap⟩ := walkCoords_corner fun x hx => (hb x hx).1
  have hmach : ∀ c, (mk ll ur).Inside m.globalDims c → ∀ x < m.globalDims,
      c x < m.torusSize x := fun c hc x hx => (hc x hx).2.trans_lt (hb x hx).2
  refine ⟨?_,fun r => ⟨fun hr => ?_,fun hr => ?_⟩⟩
  · refine List.Nodup.map_on ?_ ?_
    · intro c hc c' hc' he
      have hagr : ∀ x < m.globalDims, c x = c' x := fun x hx => by
        rw [← hm.right c (hmach c (hin c hc)) x hx,he,hm.right c' (hmach c' (hin c' hc')) x hx]
      exact inj_on_of_nodup_map (hmap ▸ nodup_range') hc hc' (encode_congr hagr)
    · exact List.Nodup.of_map _ (hmap ▸ nodup_range')
  · obtain ⟨c,hc,rfl⟩ := List.mem_map.1 hr
    refine ⟨hm.task c (hmach c (hin c hc)),fun x hx => ?_⟩
    rw [hm.right c (hmach c (hin c hc)) x hx]
    exact hin c hc x hx
  · have hlt := encode_lt hr.2
    have hmem : (mk ll ur).encode (m.task2network r) m.globalDims ∈
        (walkCoords ll ur m.globalDims ((mk ll ur).card m.globalDims) ll).map
          fun c' => (mk ll ur).encode c' m.globalDims := by
      rw [hmap]
      exact mem_range'_1.2 ⟨Nat.zero_le _,by omega⟩
    obtain ⟨c,hc,he⟩ := List.mem_map.1 hmem
    have hagr := encode_injective (hin c hc) hr.2 he
    exact List.mem_map.2 ⟨c,hc,hm.task_eq hr.1 fun x hx => (hagr x hx).symm⟩

theorem coord_ncard : {r | r<n ∧ (mk ll ur).Inside m.globalDims (m.task2network r)}.ncard =
        (mk ll ur).card m.globalDims ∧ (mk ll ur).card m.globalDims ≤ n := by
  have hw := walk_ranks hm hb
  have hlng := congrArg List.length (walkCoords_corner fun x hx => (hb x hx).1).2
  rw [length_map,length_range'] at hlng
  generalize (walkCoords ll ur m.globalDims ((mk ll ur).card m.globalDims) ll)=L at hw hlng
  have hset : {r | r<n ∧ (mk ll ur).Inside m.globalDims (m.task2network r)} =
      ((L.map m.network2task).toFinset : Set ℕ) := by
    ext r
    simpa using (hw.mem r).symm
  have hcard := toFinset_card_of_nodup hw.nodup
  rw [length_map,hlng] at hcard
  refine ⟨by rw [hset,ncard_coe_finset,hcard],?_⟩
  have hsub : (L.map m.network2task).toFinset ⊆ Finset.range n := by
    intro r hr
    exact Finset.mem_range.mpr ((hw.mem r).mp (List.mem_toFinset.mp hr)).1
  calc (mk ll ur).card m.globalDims=(L.map m.network2task).toFinset.card := hcard.symm
    _ ≤ (Finset.range n).card := Finset.card_le_card hsub
    _ = n := Finset.card_range n

end

theorem below_finite {p : ℕ → Prop} : {r | r<n ∧ p r}.Finite := (finite_lt_nat n).subset fun _ hr => hr.1

theorem covers_iff_nodup {S : Set ℕ} (hfin : S.Finite) (hsub : ∀ r ∈ rl, r ∈ S)
    (hcard : S.ncard=rl.length) : (∀ r, r ∈ S ↔ r ∈ rl) ↔ rl.Nodup := by
  constructor
  · intro h
    have hset : S=(rl.toFinset : Set ℕ) := by
      ext r
      simp [h]
    rw [hset,ncard_coe_finset,card_toFinset] at hcard
    exact List.dedup_eq_self.1 (rl.dedup_sublist.eq_of_length hcard)
  · intro hn
    have hset : (rl.toFinset : Set ℕ)=S := by
      refine eq_of_subset_of_ncard_le (fun r hr => hsub r ?_) ?_ hfin
      · simpa using hr
      · rw [hcard,ncard_coe_finset,toFinset_card_of_nodup hn]
    intro r
    rw [← hset]
    simp

theorem foldl_bumpRange (l : List Coord) (lu : Coord × Coord) (x : ℕ) (h : lu.1 x ≤ lu.2 x) :
    (l.foldl bumpRange lu).1 x ≤ lu.1 x ∧ lu.2 x ≤ (l.foldl bumpRange lu).2 x ∧
      (∀ c ∈ l, (l.foldl bumpRange lu).1 x ≤ c x ∧ c x ≤ (l.foldl bumpRange lu).2 x) ∧
      ∀ lo hi, lo ≤ lu.1 x → lu.2 x ≤ hi → (∀ c ∈ l, lo ≤ c x ∧ c x ≤ hi) →
        lo ≤ (l.foldl bumpRange lu).1 x ∧ (l.foldl bumpRange lu).2 x ≤ hi := by
  induction l generalizing lu with
  | nil => exact ⟨le_rfl,le_rfl,fun c hc => (by cases hc),fun lo hi hl hh _ => ⟨hl,hh⟩⟩
  | cons c l ih =>
    have hbump : (bumpRange lu c).1 x ≤ lu.1 x ∧ lu.2 x ≤ (bumpRange lu c).2 x ∧
        (bumpRange lu c).1 x ≤ c x ∧ c x ≤ (bumpRange lu c).2 x ∧
        (bumpRange lu c).1 x ≤ (bumpRange lu c).2 x ∧
        ∀ lo hi, lo≤lu.1 x → lu.2 x≤hi → lo ≤ c x → c x≤hi →
          lo≤(bumpRange lu c).1 x ∧ (bumpRange lu c).2 x≤hi := by
      simp only [bumpRange]
      split_ifs <;> refine ⟨?_,?_,?_,?_,?_,?_⟩ <;> omega
    obtain ⟨h1,h2,h3,h4,h5,h6⟩ := hbump
    obtain ⟨i1,i2,i3,i4⟩ := ih (bumpRange lu c) h5
    rw [foldl_cons]
    refine ⟨i1.trans h1,h2.trans i2,?_,?_⟩
    · intro c' hc'
      rcases List.mem_cons.1 hc' with rfl | hc'
      · exact ⟨i1.trans h3,h4.trans i2⟩
      · exact i3 c' hc'
    · intro lo hi hl hh hall
      have hc := hall c (List.mem_cons_self ..)
      obtain ⟨j1,j2⟩ := h6 lo hi hl hh hc.1 hc.2
      exact i4 lo hi j1 j2 fun c' hc' => hall c' (List.mem_cons_of_mem _ hc')

theorem sizeRange_eq (d : ℕ) : sizeRange ll ur d = (mk ll ur).card d := by
  induction d with
  | zero => rfl
  | succ d ih =>
    unfold sizeRange at ih ⊢
    rw [range_succ,foldl_append,ih]
    rfl

theorem le_foldl_max (l : List ℕ) (a : ℕ) : a ≤ l.foldl max a ∧ ∀ i ∈ l, i ≤ l.foldl max a := by
  induction l generalizing a with
  | nil => exact ⟨le_rfl,fun i hi => (by cases hi)⟩
  | cons b l ih =>
    obtain ⟨h1,h2⟩ := ih (max a b)
    rw [foldl_cons]
    refine ⟨(le_max_left a b).trans h1,fun i hi => ?_⟩
    rcases List.mem_cons.1 hi with rfl | hi
    · exact (le_max_right a i).trans h1
    · exact h2 i hi

theorem foldl_min_zero (l : List ℕ) : l.foldl min 0 = 0 := by
  induction l with
  | nil => rfl
  | cons b l ih => rw [foldl_cons,Nat.zero_min,ih]

end Ranks

end PAMI.Common
