import PAMI.Common.Enumeration
import PAMI.Common.Subtraction

namespace PAMI.Common

open Topology Function List

/-- An entry of the table `tb`: a node, how many of its ranks have been found, and the place in the list
of the rank that was chosen. -/
structure Slot where
  node : ℕ
  found : ℕ
  place : Option ℕ

section Loop

variable {E : Type} (n : ℕ)

/-- One more rank of the node of a slot is found, with the local address `loc`. -/
def Slot.find (loc : ℕ) (e : E) (sl : Slot) (rl : List E) : Slot × List E :=
  let (place, rl) :=
    if loc = n then
      match sl.place with
      | none => (some rl.length, rl ++ [e])
      | some p => (some p, rl.set p e)
    else (sl.place, rl)
  if sl.found = n ∧ place = none then ({ sl with found := sl.found + 1, place := some rl.length }, rl ++ [e])
  else ({ sl with found := sl.found + 1, place }, rl)

/-- The inner loop: a slot is taken for a node that has none. -/
def nthScan (node loc : ℕ) (e : E) : List Slot → List E → List Slot × List E
  | [], rl =>
    let r := Slot.find n loc e ⟨node, 0, none⟩ rl
    ([r.1], r.2)
  | sl :: tb, rl =>
    if sl.node = node then
      let r := sl.find n loc e rl
      (r.1 :: tb, r.2)
    else
      let r := nthScan node loc e tb rl
      (sl :: r.1, r.2)

/-- The loop of `subTopologyNthGlobal` over the ranks: the table and the list of those chosen. -/
def nthLoop (node loc : E → ℕ) (es : List E) : List Slot × List E :=
  es.foldl (fun s e => nthScan n (node e) (loc e) e s.1 s.2) ([], [])

variable {n} {node loc : E → ℕ} {e : E} {es rl : List E} {tb : List Slot} {sl : Slot}

/-- What the table and the list say of the ranks so far. -/
structure Chosen (n : ℕ) (node : E → ℕ) (es : List E) (tb : List Slot) (rl : List E) : Prop where
  nodes : (tb.map Slot.node).Nodup
  seen : ∀ e ∈ es, node e ∈ tb.map Slot.node
  found : ∀ sl ∈ tb, sl.found = es.countP fun e => node e = sl.node
  place : ∀ sl ∈ tb, ∀ p, sl.place = some p ↔ (rl.map node)[p]? = some sl.node
  sub : ∀ e ∈ rl, e ∈ es
  nodup : (rl.map node).Nodup
  enough : ∀ sl ∈ tb, n < sl.found → sl.place ≠ none

theorem find_spec {l : ℕ} (he : node e = sl.node)
    (hp : ∀ p, sl.place = some p ↔ (rl.map node)[p]? = some sl.node) :
    (sl.find n l e rl).1.node=sl.node ∧ (sl.find n l e rl).1.found=sl.found+1 ∧
      (∀ x ∈ (sl.find n l e rl).2, x ∈ rl ∨ x=e) ∧
      (sl.found=n → (sl.find n l e rl).1.place≠none) ∧
      ((sl.find n l e rl).1.place=sl.place ∧ (sl.find n l e rl).2.map node = rl.map node ∨
        sl.place=none ∧ (sl.find n l e rl).1.place = some rl.length ∧
          (sl.find n l e rl).2.map node = rl.map node ++ [sl.node]) := by
  have hset : ∀ p, sl.place=some p → (rl.set p e).map node = rl.map node := by
    intro p hsl
    rw [map_set,he]
    refine ext_getElem? fun i => ?_
    rw [getElem?_set]
    split_ifs with hpi hlt
    · subst hpi; exact ((hp p).1 hsl).symm
    · subst hpi; exact (getElem?_eq_none (by omega)).symm
    · rfl
  unfold Slot.find
  by_cases hloc : l=n
  · rw [if_pos hloc]
    cases hsl : sl.place with
    | none => simp [he]
    | some p =>
      have hmem : ∀ x ∈ rl.set p e, x ∈ rl ∨ x=e := fun x hx => mem_or_eq_of_mem_set hx
      simpa [hset p hsl] using hmem
  · rw [if_neg hloc]
    by_cases hn : sl.found=n ∧ sl.place=none
    · simp [hn,he]
    · simp only [if_neg hn]
      exact ⟨trivial,trivial,fun x hx => .inl hx,fun h hnn => hn ⟨h,hnn⟩,.inl ⟨trivial,trivial⟩⟩

theorem getElem?_concat (l : List ℕ) (x y p : ℕ) :
    (l ++ [x])[p]? = some y ↔ l[p]? = some y ∨ p=l.length ∧ x=y := by
  rw [getElem?_append]
  split_ifs with h
  · simp [h.ne]
  · rw [getElem?_eq_none (Nat.le_of_not_lt h),getElem?_singleton]
    split_ifs <;> simp <;> omega

theorem nthScan_eq (a l : ℕ) (tb : List Slot) (rl : List E) : ∃ pre sl post, sl.node=a ∧
    (tb = pre ++ sl :: post ∨ a ∉ tb.map Slot.node ∧ tb=pre ∧ post = [] ∧ sl = ⟨a,0,none⟩) ∧
      nthScan n a l e tb rl = (pre ++ (sl.find n l e rl).1 :: post, (sl.find n l e rl).2) := by
  induction tb with
  | nil => exact ⟨[],_,[],rfl,.inr ⟨by simp,rfl,rfl,rfl⟩,rfl⟩
  | cons s tb ih =>
    rw [nthScan]
    by_cases hs : s.node=a
    · exact ⟨[],s,tb,hs,.inl rfl,by rw [if_pos hs]; rfl⟩
    · obtain ⟨pre,sl,post,hsl,h,heq⟩ := ih
      refine ⟨s :: pre,sl,post,hsl,?_,by rw [if_neg hs,heq]; rfl⟩
      rcases h with rfl | ⟨hno,rfl,hps,hnew⟩
      · exact .inl rfl
      · refine .inr ⟨?_,rfl,hps,hnew⟩
        rw [map_cons,mem_cons,not_or]
        exact ⟨Ne.symm hs,hno⟩

theorem Chosen.take (h : Chosen n node es tb rl) {a : ℕ} (ha : a ∉ tb.map Slot.node) :
    Chosen n node es (tb ++ [⟨a,0,none⟩]) rl := by
  have hes : ∀ e ∈ es, node e≠a := fun e he heq => ha (heq ▸ h.seen e he)
  have hcount : es.countP (fun e => node e=a)=0 := by
    rw [countP_eq_zero]
    simpa using hes
  have hrl : ∀ p, (rl.map node)[p]? ≠ some a := fun p hp => by
    obtain ⟨e,he,heq⟩ := mem_map.1 (mem_of_getElem? hp)
    exact hes e (h.sub e he) heq
  have hmem : ∀ sl ∈ tb ++ [⟨a,0,none⟩], sl ∈ tb ∨ sl = ⟨a,0,none⟩ := by simp
  refine ⟨?_,fun e he => ?_,fun sl hsl => ?_,fun sl hsl p => ?_,h.sub,h.nodup,fun sl hsl hlt => ?_⟩
  · rw [map_append,nodup_append_comm]
    exact nodup_cons.2 ⟨ha,h.nodes⟩
  · simpa using .inl (by simpa using h.seen e he)
  · rcases hmem sl hsl with hsl | rfl
    · exact h.found sl hsl
    · exact hcount.symm
  · rcases hmem sl hsl with hsl | rfl
    · exact h.place sl hsl p
    · exact iff_of_false nofun (hrl p)
  · rcases hmem sl hsl with hsl | rfl
    · exact h.enough sl hsl hlt
    · exact absurd hlt (Nat.not_lt_zero _)

theorem Chosen.find {pre post : List Slot} {l : ℕ} (h : Chosen n node es (pre ++ sl :: post) rl) (he : node e = sl.node) :
    Chosen n node (es ++ [e]) (pre ++ (sl.find n l e rl).1 :: post) (sl.find n l e rl).2 := by
  have hse : sl ∈ pre ++ sl :: post := by simp
  obtain ⟨hnode,hfound,hsub,hn,hplace⟩ := find_spec (n := n) (l := l) he (h.place sl hse)
  generalize sl.find n l e rl=r at *
  obtain ⟨sl',rl'⟩ := r
  simp only at *
  have hnodes := h.nodes
  rw [map_append,map_cons] at hnodes
  have hother : ∀ s ∈ pre ++ sl' :: post, s=sl' ∨ s ∈ pre ++ sl :: post ∧ s.node≠sl.node := by
    intro s hs
    simp only [mem_append,mem_cons] at hs ⊢
    have hdis := nodup_middle.1 hnodes
    rw [nodup_cons,mem_append,not_or] at hdis
    rcases hs with hs | rfl | hs
    · exact .inr ⟨.inl hs,fun heq => hdis.1.1 (heq ▸ mem_map_of_mem hs)⟩
    · exact .inl rfl
    · exact .inr ⟨.inr (.inr hs),fun heq => hdis.1.2 (heq ▸ mem_map_of_mem hs)⟩
  have hkeep : (pre ++ sl' :: post).map Slot.node = (pre ++ sl :: post).map Slot.node := by simp [hnode]
  refine ⟨hkeep ▸ h.nodes,fun x hx => ?_,fun s hs => ?_,fun s hs p => ?_,fun x hx => ?_,?_,fun s hs hlt => ?_⟩
  · rw [hkeep]
    rcases mem_append.1 hx with hx | hx
    · exact h.seen x hx
    · rw [mem_singleton.1 hx,he]
      exact mem_map_of_mem hse
  · rw [countP_append]
    rcases hother s hs with rfl | ⟨hs,hne⟩
    · rw [hfound,h.found sl hse,hnode]
      simp [he]
    · rw [h.found s hs]
      simp [he,Ne.symm hne]
  · rcases hother s hs with rfl | ⟨hs,hne⟩
    · rw [hnode]
      rcases hplace with ⟨hp,hmap⟩ | ⟨hnn,hp,hmap⟩
      · rw [hp,hmap]
        exact h.place sl hse p
      · rw [hp,hmap,getElem?_concat,← h.place sl hse,hnn,length_map,Option.some.injEq]
        simp [eq_comm]
    · rw [h.place s hs]
      rcases hplace with ⟨-,hmap⟩ | ⟨-,-,hmap⟩
      · rw [hmap]
      · rw [hmap,getElem?_concat]
        simp [Ne.symm hne]
  · rcases hsub x hx with hx | rfl
    · exact mem_append_left _ (h.sub x hx)
    · simp
  · rcases hplace with ⟨-,hmap⟩ | ⟨hnn,-,hmap⟩
    · exact hmap ▸ h.nodup
    · rw [hmap,nodup_append_comm]
      refine nodup_cons.2 ⟨fun hin : sl.node ∈ rl.map node => ?_,h.nodup⟩
      obtain ⟨p,hp⟩ := mem_iff_getElem?.1 hin
      rw [← h.place sl hse,hnn] at hp
      cases hp
  · rcases hother s hs with rfl | ⟨hs,-⟩
    · by_cases heq : sl.found=n
      · exact hn heq
      · have hsl := h.enough sl hse (by omega)
        rcases hplace with ⟨hp,-⟩ | ⟨hnn,-⟩
        · rwa [hp]
        · exact absurd hnn hsl
    · exact h.enough s hs hlt

theorem Chosen.step (h : Chosen n node es tb rl) : Chosen n node (es ++ [e])
    (nthScan n (node e) (loc e) e tb rl).1 (nthScan n (node e) (loc e) e tb rl).2 := by
  obtain ⟨pre,sl,post,hsl,htb,heq⟩ := nthScan_eq (n := n) (e := e) (node e) (loc e) tb rl
  rw [heq]
  rcases htb with rfl | ⟨hno,rfl,rfl,rfl⟩
  · exact h.find hsl.symm
  · exact (h.take hno).find hsl.symm

theorem chosen_nthLoop (n : ℕ) (node loc : E → ℕ) (es : List E) :
    Chosen n node es (nthLoop n node loc es).1 (nthLoop n node loc es).2 := by
  induction es using reverseRecOn with
  | nil => exact ⟨nodup_nil,nofun,nofun,nofun,nofun,nodup_nil,nofun⟩
  | append_singleton es e ih =>
    simp only [nthLoop,foldl_append,foldl_cons,foldl_nil]
    exact ih.step

/-- Of each node at most one rank is chosen, and one of each that has more than `n`. -/
structure Selects (n : ℕ) (node : E → ℕ) (es rl : List E) : Prop where
  nodup : (rl.map node).Nodup
  sub : ∀ e ∈ rl, e ∈ es
  found : ∀ a, n < es.countP (node · = a) → ∃ e ∈ rl, node e = a

theorem nthLoop_selects (n : ℕ) (node loc : E → ℕ) (es : List E) : Selects n node es (nthLoop n node loc es).2 := by
  have h := chosen_nthLoop n node loc es
  refine ⟨h.nodup,h.sub,fun a ha => ?_⟩
  obtain ⟨e,he,hea⟩ := countP_pos_iff.1 (Nat.zero_lt_of_lt ha)
  obtain ⟨sl,hsl,hnode⟩ := mem_map.1 (h.seen e he)
  obtain rfl : sl.node=a := by simpa [hnode] using hea
  obtain ⟨p,hp⟩ := Option.ne_none_iff_exists'.1 (h.enough sl hsl (by rw [h.found sl hsl]; exact ha))
  exact mem_map.1 (mem_of_getElem? ((h.place sl hsl p).1 hp))

theorem Selects.length_le (h : Selects n node es rl) : rl.length≤es.length := by
  have hle := (h.nodup.subperm (map_subset _ h.sub)).length_le
  simpa using hle

theorem Selects.eq (h : Selects n node es rl) {x y : E} (hx : x ∈ rl) (hy : y ∈ rl) (heq : node x = node y) : x=y :=
  inj_on_of_nodup_map h.nodup hx hy heq

theorem Selects.of_ncard (h : Selects n node es rl) {P : E → Prop} (hes : ∀ e, e ∈ es ↔ P e) (a : ℕ)
    (hn : n < {e | P e ∧ node e = a}.ncard) : ∃ e ∈ rl, node e = a := by
  classical
  refine h.found a (hn.trans_le ?_)
  have hset : {e | P e ∧ node e=a} = ((es.filter (node · = a)).toFinset : Set E) := by
    ext e
    simp [hes]
  rw [hset,Set.ncard_coe_finset,countP_eq_length_filter]
  exact toFinset_card_le _

theorem mem_iff_getD {l : List E} {d : E} : (∃ i<l.length, l.getD i d = e) ↔ e ∈ l := by
  rw [mem_iff_getElem]
  exact exists_congr fun i => ⟨fun ⟨h,he⟩ => ⟨h,by rwa [getD_eq_getElem] at he⟩,
    fun ⟨h,he⟩ => ⟨h,by rwa [getD_eq_getElem]⟩⟩

end Loop

/-- What the mapping knows of the nodes. -/
structure Nodes where
  torusDims : ℕ
  task2node : ℕ → ℕ × ℕ
  numActiveNodes : ℕ
  nodePeers : ℕ

namespace Nodes

variable (q : Nodes)

def node (r : ℕ) : ℕ := (q.task2node r).1

def address (r : ℕ) : ℕ := (q.task2node r).2

def isPeer (r r' : ℕ) : Bool := q.node r == q.node r'

/-- A node has the tasks with its torus coordinates; `me` is the calling task. -/
structure Placed (m : Mapping) (n me : ℕ) : Prop where
  dims : q.torusDims ≤ m.globalDims
  node : ∀ r < n, ∀ r' < n, q.node r = q.node r' ↔ ∀ x < q.torusDims, m.task2network r x = m.task2network r' x
  active : ∀ rl : List ℕ, (∀ r ∈ rl, r < n) → (rl.map q.node).Nodup → rl.length ≤ q.numActiveNodes
  peers : ∀ rl : List ℕ, rl.Nodup → (∀ r ∈ rl, r < n ∧ q.node r = q.node me) → rl.length ≤ q.nodePeers
  me : me < n

end Nodes

/-- A sub-topology, with the entries that were written and those that were allocated for them. -/
structure SubTopology where
  topology : AnyTopology
  written : ℕ := 0
  allocated : ℕ := 0

/-- The loop of `__subTopologyNthGlobal`: what is left of `n`, and the corners. -/
def sliceCoord (ll ur : Coord) : List ℕ → ℕ → Coord × Coord → ℕ × Coord × Coord
  | [], n, lu => (n, lu)
  | x :: xs, n, lu =>
    let nn := ur x - ll x + 1
    if n < nn then sliceCoord ll ur xs 0 (update lu.1 x (ll x + n), update lu.2 x (ll x + n))
    else sliceCoord ll ur xs (n / nn) (update lu.1 x (ll x + n % nn), update lu.2 x (ll x + n % nn))

namespace AnyTopology

variable (q : Nodes) (m : Mapping)

/-- `subTopologyNthGlobal` into `new`. -/
def subTopologyNthGlobal (new : Topology) (n : ℕ) : AnyTopology → SubTopology
  | .EPLIST l =>
    let epl := (nthLoop n (fun e : Endpoint => q.node e.1) (fun e => q.address e.1) ((range l.size).map l.eplist)).2
    ⟨if 0 < epl.length then .EPLIST ⟨epl.length, fun i => epl.getD i (0, 0)⟩
      else .tasks { new.toEmpty with offset := 0, allContexts := false },
      epl.length, min l.size q.numActiveNodes⟩
  | .tasks t =>
    match t.type with
    | .COORD ll ur =>
      let r := sliceCoord ll ur (range' q.torusDims (m.globalDims - q.torusDims)) n (ll, ur)
      if r.1 = 0 then
        ⟨.tasks { t with type := .COORD r.2.1 r.2.2, size := sizeRange ll ur q.torusDims }, 0, 0⟩
      else ⟨.tasks t.toEmpty, 0, 0⟩
    | _ =>
      let rl := (nthLoop n q.node q.address ((range t.numRanks).map (t.index2Rank m))).2
      ⟨.tasks ({ new with offset := 0, allContexts := false }.toKept rl), rl.length, min t.numRanks q.numActiveNodes⟩

/-- The coordinates of the calling task on its node. -/
def onNode (c0 c : Coord) : Coord := fun x => if x < q.torusDims then c0 x else c x

/-- The ranks on the node of the calling task. -/
def localRanks (me : ℕ) (new t : Topology) (ranks : List ℕ) : SubTopology :=
  let rl := ranks.filter (q.isPeer me)
  ⟨.tasks (if 0 < rl.length then t.toList rl else new.toEmpty), rl.length, q.nodePeers⟩

/-- `subTopologyLocalToMe` into `new`, which keeps the center it had, `stale`. -/
def subTopologyLocalToMe (me : ℕ) (new : Topology) (stale : Coord) : AnyTopology → SubTopology
  | .EPLIST l =>
    let epl := ((range l.size).map l.eplist).filter fun e => q.isPeer me e.1
    ⟨.EPLIST ⟨epl.length, fun i => epl.getD i (0, 0)⟩, epl.length, epl.length⟩
  | .tasks t =>
    let c0 := m.task2network me
    let locals := range' q.torusDims (m.globalDims - q.torusDims)
    match t.type with
    | .COORD ll ur =>
      if isMemberCoord ll ur c0 q.torusDims then
        let s := locals.foldl (fun s x => s * (ur x - ll x + 1)) 1
        ⟨.tasks { new with type := .COORD (onNode q c0 ll) (onNode q c0 ur), size := s }, 0, 0⟩
      else ⟨.tasks new.toEmpty, 0, 0⟩
    | .AXIAL ll ur _ =>
      if isMemberCoord ll ur c0 q.torusDims ∧ locals ≠ [] then
        let s := locals.foldl (fun s x => s * (ur x - ll x + 1)) 1
        ⟨.tasks { new with type := .AXIAL (onNode q c0 ll) (onNode q c0 ur) stale, size := s }, 0, 0⟩
      else ⟨.tasks new.toEmpty, 0, 0⟩
    | .SINGLE rank => ⟨.tasks (if q.isPeer me rank then t else new.toEmpty), 0, 0⟩
    | .RANGE first last => localRanks q me new t (range' first (last + 1 - first))
    | .LIST ranklist => localRanks q me new t ((range t.size).map ranklist)
    | .EMPTY => localRanks q me new t []

/-- The endpoints of a list; of tasks only the ranks count, and stand for themselves with a zero. -/
def Entry (n : ℕ) (e : Endpoint) : AnyTopology → Prop
  | .tasks t => t.Member m n e.1 ∧ e.2 = 0
  | .EPLIST l => ∃ i < l.size, l.eplist i = e

/-- A subset with at most one entry of each node, and one of each that has more than `k`. -/
structure NthOfNodes (n k : ℕ) (T : AnyTopology) (T' : SubTopology) : Prop where
  sub : ∀ e, T'.topology.Entry m n e → T.Entry m n e
  one : ∀ e e', T'.topology.Entry m n e → T'.topology.Entry m n e' → q.node e.1 = q.node e'.1 → e = e'
  found : ∀ a, k < {e | T.Entry m n e ∧ q.node e.1 = a}.ncard → ∃ e, T'.topology.Entry m n e ∧ q.node e.1 = a
  fits : T'.written ≤ T'.allocated

/-- The entries on the node of the calling task. -/
structure LocalToMe (n me : ℕ) (T : AnyTopology) (T' : SubTopology) : Prop where
  entry : ∀ e, T'.topology.Entry m n e ↔ T.Entry m n e ∧ q.node e.1 = q.node me
  fits : T'.written ≤ T'.allocated

end AnyTopology

section Slice

variable {ll ur c : Coord} {xs : List ℕ} {n x td d k : ℕ} {lu : Coord × Coord}

theorem sliceCoord_cons (x : ℕ) (xs : List ℕ) (n : ℕ) (lu : Coord × Coord) : sliceCoord ll ur (x :: xs) n lu =
    sliceCoord ll ur xs (n/(ur x-ll x+1))
      (update lu.1 x (ll x+n%(ur x-ll x+1)), update lu.2 x (ll x+n%(ur x-ll x+1))) := by
  rw [sliceCoord]
  split_ifs with h
  · rw [Nat.mod_eq_of_lt h,Nat.div_eq_of_lt h]
  · rfl

theorem sliceCoord_left (xs : List ℕ) (n : ℕ) (lu : Coord × Coord) :
    (sliceCoord ll ur xs n lu).1=n/(xs.map fun x => ur x-ll x+1).prod := by
  induction xs generalizing n lu with
  | nil => simp [sliceCoord]
  | cons y xs ih => rw [sliceCoord_cons,ih,Nat.div_div_eq_div_mul,map_cons,prod_cons]

theorem sliceCoord_of_notMem (h : x ∉ xs) :
    (sliceCoord ll ur xs n lu).2.1 x = lu.1 x ∧ (sliceCoord ll ur xs n lu).2.2 x = lu.2 x := by
  induction xs generalizing n lu with
  | nil => exact ⟨rfl,rfl⟩
  | cons y xs ih =>
    rw [mem_cons,not_or] at h
    rw [sliceCoord_cons,(ih h.2).1,(ih h.2).2]
    exact ⟨update_of_ne h.1 _ _,update_of_ne h.1 _ _⟩

theorem sliceCoord_of_mem (hnod : xs.Nodup) (hb : ∀ x ∈ xs, ll x ≤ ur x) (h : x ∈ xs) :
    (sliceCoord ll ur xs n lu).2.1 x = (sliceCoord ll ur xs n lu).2.2 x ∧
      ll x ≤ (sliceCoord ll ur xs n lu).2.1 x ∧ (sliceCoord ll ur xs n lu).2.1 x ≤ ur x := by
  induction xs generalizing n lu with
  | nil => cases h
  | cons y xs ih =>
    rw [nodup_cons] at hnod
    rw [sliceCoord_cons]
    rcases mem_cons.1 h with rfl | h
    · have hx := hb x mem_cons_self
      have hmod := Nat.mod_lt n (show 0<ur x-ll x+1 by omega)
      rw [(sliceCoord_of_notMem hnod.1).1,(sliceCoord_of_notMem hnod.1).2]
      simp only [update_self,true_and]
      omega
    · exact ih hnod.2 (fun z hz => hb z (mem_cons_of_mem y hz)) h

end Slice

namespace Nodes.Placed

variable {q : Nodes} {m : Mapping} {n me r r0 : ℕ} {ll ur : Coord}

open AnyTopology

theorem inside_onNode (hq : q.Placed m n me) (hr : r<n) (hr0 : r0<n) :
    (Math.Box.mk (onNode q (m.task2network r0) ll) (onNode q (m.task2network r0) ur)).Inside m.globalDims
        (m.task2network r) ↔
      q.node r = q.node r0 ∧ ∀ x < m.globalDims, q.torusDims≤x → ll x ≤ m.task2network r x ∧ m.task2network r x ≤ ur x := by
  rw [hq.node r hr r0 hr0]
  unfold Math.Box.Inside onNode
  constructor
  · intro h
    refine ⟨fun x hx => ?_,fun x hx hle => ?_⟩
    · have := h x (hx.trans_le hq.dims)
      simp only [if_pos hx] at this
      omega
    · simpa only [if_neg (Nat.not_lt.2 hle)] using h x hx
  · rintro ⟨h1,h2⟩ x hx
    by_cases hlt : x<q.torusDims
    · simp only [if_pos hlt,h1 x hlt,le_refl,and_self]
    · simpa only [if_neg hlt] using h2 x hx (Nat.le_of_not_lt hlt)

theorem card_onNode (c ll ur : Coord) (k : ℕ) :
    (Math.Box.mk (onNode q c ll) (onNode q c ur)).card (q.torusDims+k) =
      ((range' q.torusDims k).map fun x => ur x-ll x+1).prod := by
  have hone : ∀ d≤q.torusDims, (Math.Box.mk (onNode q c ll) (onNode q c ur)).card d=1 := by
    intro d hd
    induction d with
    | zero => rfl
    | succ d ih =>
      have hlt : d<q.torusDims := hd
      rw [Math.Box.card,ih (by omega),Math.Box.width]
      simp [onNode,hlt]
  induction k with
  | zero => exact hone _ le_rfl
  | succ k ih =>
    rw [← Nat.add_assoc,Math.Box.card,ih,range'_1_concat,map_append,prod_append,Math.Box.width]
    simp [onNode]

end Nodes.Placed

namespace AnyTopology

variable {q : Nodes} {m : Mapping} {n K me k : ℕ} {t new : Topology} {ll ur : Coord}

theorem Valid.wellFormed (ht : t.tasksOnly.Valid m n) : t.WellFormed m n := by
  have hv := ht.2
  unfold Topology.WellFormed
  simp only [tasksOnly] at hv
  cases hk : t.type with
  | LIST ranklist => simp only [hk] at hv; exact hv.1
  | AXIAL ll ur center => trivial
  | _ => simpa [hk] using hv

section

variable (hm : m.Bijective n) (hq : q.Placed m n me) (ht : t.ValidEndpoints m n K)
include hm ht

theorem member_iff_place (r : ℕ) : t.Member m n r ↔ ∃ ix<t.size, t.tasksOnly.index2Rank m ix = r := by
  by_cases hne : ∀ ll ur center, t.type ≠ .AXIAL ll ur center
  · exact member_iff_index hm (Valid.wellFormed ht.tasks) hne
  · push Not at hne
    obtain ⟨ll,ur,center,hk⟩ := hne
    have hax := Valid.isAxial hm ht.tasks hk
    exact ⟨hax.exists_index,fun ⟨ix,hix,hr⟩ => hr ▸ hax.index2Rank_member hix⟩

theorem mem_ranks (r : ℕ) : r ∈ (range t.numRanks).map (t.index2Rank m) ↔ t.Member m n r := by
  rw [member_iff_place hm ht,mem_map]
  simp only [mem_range]
  cases hc : t.allContexts with
  | false => rw [numRanks_one hc,tasksOnly_eq hc]
  | true =>
    have hpos := (ht.contexts hc).1
    rw [numRanks_all hc]
    constructor
    · rintro ⟨ix,hix,rfl⟩
      exact ⟨ix/t.offset,Nat.div_lt_of_lt_mul (by rwa [mul_comm]),(index2Rank_all hc ix).symm⟩
    · rintro ⟨ix,hix,rfl⟩
      refine ⟨ix*t.offset,Nat.mul_lt_mul_of_pos_right hix hpos,?_⟩
      rw [index2Rank_all hc,Nat.mul_div_cancel ix hpos]

omit hm ht in
theorem ncard_entries (a : ℕ) : {e | (AnyTopology.tasks t).Entry m n e ∧ q.node e.1 = a}.ncard =
    {r | t.Member m n r ∧ q.node r = a}.ncard := by
  have himage : {e | (AnyTopology.tasks t).Entry m n e ∧ q.node e.1=a} =
      (fun r => (r, 0)) '' {r | t.Member m n r ∧ q.node r=a} := by
    ext ⟨r,c⟩
    simp only [Entry,Set.mem_ofPred_eq,Set.mem_image,Prod.mk.injEq]
    constructor
    · rintro ⟨⟨hr,rfl⟩,ha⟩
      exact ⟨r,⟨hr,ha⟩,rfl,rfl⟩
    · rintro ⟨r,⟨hr,ha⟩,rfl,rfl⟩
      exact ⟨⟨hr,rfl⟩,ha⟩
  rw [himage,Set.ncard_image_of_injective _ fun r r' h => congrArg Prod.fst h]

include hq

theorem nth_ranks (new : Topology) (k : ℕ) : NthOfNodes q m n k (.tasks t)
    (let rl := (nthLoop k q.node q.address ((range t.numRanks).map (t.index2Rank m))).2
    ⟨.tasks (new.toKept rl),rl.length,min t.numRanks q.numActiveNodes⟩) := by
  have hes := mem_ranks hm ht
  have hsel := nthLoop_selects k q.node q.address ((range t.numRanks).map (t.index2Rank m))
  have hlen := hsel.length_le
  rw [length_map,length_range] at hlen
  generalize (nthLoop k q.node q.address ((range t.numRanks).map (t.index2Rank m))).2=rl at *
  have hmem : ∀ r ∈ rl, t.Member m n r := fun r hr => (hes r).1 (hsel.sub r hr)
  have hkp := toKept_member (m := m) (t := new) fun r hr => (hmem r hr).1
  refine ⟨fun e he => ?_,fun e e' he he' h => ?_,fun a ha => ?_,le_min hlen ?_⟩
  · exact ⟨hmem _ ((hkp _).1 he.1),he.2⟩
  · exact Prod.ext (hsel.eq ((hkp _).1 he.1) ((hkp _).1 he'.1) h) (he.2.trans he'.2.symm)
  · rw [ncard_entries] at ha
    obtain ⟨r,hr,hra⟩ := hsel.of_ncard hes a ha
    exact ⟨(r, 0),⟨(hkp r).2 hr,rfl⟩,hra⟩
  · exact hq.active rl (fun r hr => (hmem r hr).1) hsel.nodup

end

theorem slice_spec (hq : q.Placed m n me) (hb : ∀ x < m.globalDims, ll x ≤ ur x) (k : ℕ) :
    let r := sliceCoord ll ur (range' q.torusDims (m.globalDims-q.torusDims)) k (ll, ur)
    r.1=k/((range' q.torusDims (m.globalDims-q.torusDims)).map fun x => ur x-ll x+1).prod ∧
      (∀ x<q.torusDims, r.2.1 x = ll x ∧ r.2.2 x = ur x) ∧
      ∀ x, q.torusDims≤x → x < m.globalDims → r.2.1 x = r.2.2 x ∧ ll x ≤ r.2.1 x ∧ r.2.1 x ≤ ur x := by
  have hdims := hq.dims
  have hmem : ∀ x, x ∈ range' q.torusDims (m.globalDims-q.torusDims) ↔ q.torusDims≤x ∧ x < m.globalDims :=
    fun x => by rw [mem_range'_1]; omega
  refine ⟨sliceCoord_left _ k _,fun x hx => sliceCoord_of_notMem fun h => ?_,fun x hle hx => ?_⟩
  · exact absurd ((hmem x).1 h).1 (Nat.not_le.2 hx)
  · exact sliceCoord_of_mem nodup_range' (fun y hy => hb y ((hmem y).1 hy).2) ((hmem x).2 ⟨hle,hx⟩)

section Coord

variable (hm : m.Bijective n) (hq : q.Placed m n me) (hk : t.type = .COORD ll ur)
  (hb : ∀ x < m.globalDims, ll x ≤ ur x ∧ ur x < m.torusSize x)
include hm hq hk hb

theorem ncard_node {r0 : ℕ} (hr0 : t.Member m n r0) : {r | t.Member m n r ∧ q.node r = q.node r0}.ncard =
    ((range' q.torusDims (m.globalDims-q.torusDims)).map fun x => ur x-ll x+1).prod := by
  rw [Topology.Member,hk] at hr0
  have hcor : ∀ x < m.globalDims, onNode q (m.task2network r0) ll x ≤ onNode q (m.task2network r0) ur x ∧
      onNode q (m.task2network r0) ur x < m.torusSize x := fun x hx => by
    unfold onNode
    split_ifs
    · exact ⟨le_rfl,hm.coords r0 hr0.1 x hx⟩
    · exact hb x hx
  have hcard := Nodes.Placed.card_onNode (q := q) (m.task2network r0) ll ur (m.globalDims-q.torusDims)
  rw [Nat.add_sub_cancel' hq.dims] at hcard
  rw [← hcard,← (coord_ncard hm hcor).1]
  congr 1
  ext r
  rw [Set.mem_ofPred_eq,Set.mem_ofPred_eq,Topology.Member,hk]
  constructor
  · rintro ⟨⟨hr,hin⟩,hnode⟩
    exact ⟨hr,(hq.inside_onNode hr hr0.1).2 ⟨hnode,fun x hx _ => hin x hx⟩⟩
  · rintro ⟨hr,hin⟩
    obtain ⟨hnode,hloc⟩ := (hq.inside_onNode hr hr0.1).1 hin
    refine ⟨⟨hr,fun x hx => ?_⟩,hnode⟩
    by_cases hlt : x<q.torusDims
    · have heq := (hq.node r hr r0 hr0.1).1 hnode x hlt
      exact heq ▸ hr0.2 x hx
    · exact hloc x hx (Nat.le_of_not_lt hlt)

theorem nth_coord (new : Topology) (k : ℕ) :
    NthOfNodes q m n k (.tasks t) (subTopologyNthGlobal q m new k (.tasks t)) := by
  simp only [subTopologyNthGlobal,hk]
  obtain ⟨hlf,hout,hin⟩ := slice_spec hq (fun x hx => (hb x hx).1) k
  generalize sliceCoord ll ur (range' q.torusDims (m.globalDims-q.torusDims)) k (ll, ur)=s at *
  obtain ⟨left,l,u⟩ := s
  simp only at *
  have hfound : ∀ a, k < {e | (AnyTopology.tasks t).Entry m n e ∧ q.node e.1=a}.ncard →
      left=0 ∧ ∃ r, t.Member m n r ∧ q.node r=a := by
    intro a ha
    rw [ncard_entries] at ha
    obtain ⟨r,hr,hra⟩ := Set.nonempty_of_ncard_ne_zero (Nat.ne_zero_of_lt ha)
    subst hra
    rw [ncard_node hm hq hk hb hr] at ha
    exact ⟨hlf.trans (Nat.div_eq_of_lt ha),r,hr,rfl⟩
  split_ifs with h0
  · have hmem : ∀ r, (Topology.Member m n { t with type := .COORD l u, size := sizeRange ll ur q.torusDims } r ↔
        r<n ∧ (∀ x<q.torusDims, ll x ≤ m.task2network r x ∧ m.task2network r x ≤ ur x) ∧
          ∀ x < m.globalDims, q.torusDims≤x → m.task2network r x = l x) := by
      intro r
      simp only [Topology.Member,Math.Box.Inside]
      refine and_congr_right fun _ => ⟨fun h => ⟨fun x hx => ?_,fun x hx hle => ?_⟩,fun h x hx => ?_⟩
      · rw [← (hout x hx).1,← (hout x hx).2]
        exact h x (hx.trans_le hq.dims)
      · have h1 := h x hx
        have h2 := hin x hle hx
        omega
      · by_cases hlt : x<q.torusDims
        · rw [(hout x hlt).1,(hout x hlt).2]
          exact h.1 x hlt
        · have h1 := h.2 x hx (Nat.le_of_not_lt hlt)
          have h2 := hin x (Nat.le_of_not_lt hlt) hx
          omega
    refine ⟨fun e he => ?_,fun e e' he he' h => ?_,fun a ha => ?_,le_rfl⟩
    · obtain ⟨hr,h1,h2⟩ := (hmem _).1 he.1
      refine ⟨?_,he.2⟩
      rw [Topology.Member,hk]
      refine ⟨hr,fun x hx => ?_⟩
      by_cases hlt : x<q.torusDims
      · exact h1 x hlt
      · have hle := Nat.le_of_not_lt hlt
        have hv := hin x hle hx
        simp only [h2 x hx hle]
        exact hv.2
    · obtain ⟨hr,-,h2⟩ := (hmem _).1 he.1
      obtain ⟨hr',-,h2'⟩ := (hmem _).1 he'.1
      refine Prod.ext (hm.injective _ hr _ hr' fun x hx => ?_) (he.2.trans he'.2.symm)
      by_cases hlt : x<q.torusDims
      · exact (hq.node _ hr _ hr').1 h x hlt
      · rw [h2 x hx (Nat.le_of_not_lt hlt),h2' x hx (Nat.le_of_not_lt hlt)]
    · obtain ⟨-,r,hr,hra⟩ := hfound a ha
      rw [Topology.Member,hk] at hr
      have hc : ∀ x < m.globalDims, onNode q (m.task2network r) l x < m.torusSize x := fun x hx => by
        unfold onNode
        split_ifs with hlt
        · exact hm.coords r hr.1 x hx
        · have hv := hin x (Nat.le_of_not_lt hlt) hx
          exact hv.2.2.trans_lt (hb x hx).2
      have hr' := hm.task _ hc
      have hcoord := hm.right _ hc
      refine ⟨(m.network2task (onNode q (m.task2network r) l), 0),⟨(hmem _).2 ⟨hr',fun x hx => ?_,fun x hx hle => ?_⟩,rfl⟩,?_⟩
      · rw [hcoord x (hx.trans_le hq.dims),onNode,if_pos hx]
        exact hr.2 x (hx.trans_le hq.dims)
      · rw [hcoord x hx,onNode,if_neg (Nat.not_lt.2 hle)]
      · rw [← hra,hq.node _ hr' _ hr.1]
        intro x hx
        rw [hcoord x (hx.trans_le hq.dims),onNode,if_pos hx]
  · refine ⟨fun e he => absurd he.1 (toEmpty_member t _),fun e _ he => absurd he.1 (toEmpty_member t _),
      fun a ha => absurd (hfound a ha).1 h0,le_rfl⟩

end Coord

section EndpointList

variable {l : EndpointList}

theorem entry_list (epl : List Endpoint) (e : Endpoint) :
    (AnyTopology.EPLIST ⟨epl.length,fun i => epl.getD i (0, 0)⟩).Entry m n e ↔ e ∈ epl := mem_iff_getD

theorem mem_endpoints (e : Endpoint) :
    e ∈ (range l.size).map l.eplist ↔ (AnyTopology.EPLIST l).Entry m n e := by simp [Entry]

theorem nth_list (hq : q.Placed m n me) (ht : (AnyTopology.EPLIST l).ValidEndpoints m n K) (new : Topology) (k : ℕ) :
    NthOfNodes q m n k (.EPLIST l) (subTopologyNthGlobal q m new k (.EPLIST l)) := by
  have hes := mem_endpoints (m := m) (n := n) (l := l)
  have hsel := nthLoop_selects k (fun e : Endpoint => q.node e.1) (fun e => q.address e.1) ((range l.size).map l.eplist)
  have hlen := hsel.length_le
  rw [length_map,length_range] at hlen
  simp only [subTopologyNthGlobal]
  generalize (nthLoop k (fun e : Endpoint => q.node e.1) (fun e => q.address e.1) ((range l.size).map l.eplist)).2 =
    epl at *
  have hentry : ∀ e, (if 0<epl.length then AnyTopology.EPLIST ⟨epl.length,fun i => epl.getD i (0, 0)⟩
      else .tasks { new.toEmpty with offset := 0, allContexts := false }).Entry m n e ↔ e ∈ epl := by
    intro e
    split_ifs with h0
    · exact entry_list epl e
    · obtain rfl : epl = [] := eq_nil_of_length_eq_zero (by omega)
      exact iff_of_false (fun he => he.1.2) not_mem_nil
  refine ⟨fun e he => (hes e).1 (hsel.sub e ((hentry e).1 he)),fun e e' he he' => ?_,fun a ha => ?_,le_min hlen ?_⟩
  · exact hsel.eq ((hentry e).1 he) ((hentry e').1 he')
  · obtain ⟨e,he,hea⟩ := hsel.of_ncard hes a ha
    exact ⟨e,(hentry e).2 he,hea⟩
  · have hact := hq.active (epl.map Prod.fst)
    simp only [length_map,map_map] at hact
    refine hact (fun r hr => ?_) hsel.nodup
    obtain ⟨e,he,rfl⟩ := mem_map.1 hr
    obtain ⟨i,hi,rfl⟩ := (hes e).1 (hsel.sub e he)
    exact (ht.1 i hi).1

end EndpointList

section Local

theorem isPeer_iff {r : ℕ} : q.isPeer me r = true ↔ q.node r = q.node me := by
  rw [Nodes.isPeer,beq_iff_eq,eq_comm]

theorem local_ranks {ranks : List ℕ} (hq : q.Placed m n me) (hranks : ∀ r, r ∈ ranks ↔ t.Member m n r)
    (hnod : ranks.Nodup) : LocalToMe q m n me (.tasks t) (localRanks q me new t ranks) := by
  have hrl : ∀ r, r ∈ ranks.filter (q.isPeer me) ↔ t.Member m n r ∧ q.node r = q.node me := fun r => by
    rw [mem_filter,hranks,isPeer_iff]
  have hnod' := hnod.filter (q.isPeer me)
  unfold localRanks
  generalize ranks.filter (q.isPeer me)=rl at *
  have hlt : ∀ r ∈ rl, r<n := fun r hr => ((hrl r).1 hr).1.1
  refine ⟨fun e => ?_,hq.peers rl hnod' fun r hr => ⟨hlt r hr,((hrl r).1 hr).2⟩⟩
  have hmem : ∀ r, (if 0 < rl.length then t.toList rl else new.toEmpty).Member m n r ↔ r ∈ rl := fun r => by
    split_ifs with h0
    · exact toList_member hlt r
    · obtain rfl : rl = [] := eq_nil_of_length_eq_zero (by omega)
      exact iff_of_false (toEmpty_member new r) not_mem_nil
  simp only [Entry,hmem,hrl]
  tauto

theorem local_coord (hq : q.Placed m n me) (hk : t.type = .COORD ll ur) (stale : Coord) :
    LocalToMe q m n me (.tasks t) (subTopologyLocalToMe q m me new stale (.tasks t)) := by
  have hnode : ∀ r, t.Member m n r ∧ q.node r = q.node me ↔ (r<n ∧ q.node r = q.node me ∧
      ∀ x < m.globalDims, q.torusDims≤x → ll x ≤ m.task2network r x ∧ m.task2network r x ≤ ur x) ∧
        (Math.Box.mk ll ur).Inside q.torusDims (m.task2network me) := by
    intro r
    rw [Topology.Member,hk]
    constructor
    · rintro ⟨⟨hr,hin⟩,h⟩
      have heq := (hq.node r hr me hq.me).1 h
      exact ⟨⟨hr,h,fun x hx _ => hin x hx⟩,fun x hx => heq x hx ▸ hin x (hx.trans_le hq.dims)⟩
    · rintro ⟨⟨hr,h,hloc⟩,hin⟩
      have heq := (hq.node r hr me hq.me).1 h
      refine ⟨⟨hr,fun x hx => ?_⟩,h⟩
      by_cases hlt : x<q.torusDims
      · exact heq x hlt ▸ hin x hlt
      · exact hloc x hx (Nat.le_of_not_lt hlt)
  simp only [subTopologyLocalToMe,hk]
  split_ifs with hin
  · rw [isMemberCoord_iff] at hin
    refine ⟨fun e => ⟨?_,?_⟩,le_rfl⟩
    · rintro ⟨⟨hr,hbox⟩,h0⟩
      have h := (hnode e.1).2 ⟨⟨hr,(hq.inside_onNode hr hq.me).1 hbox⟩,hin⟩
      exact ⟨⟨h.1,h0⟩,h.2⟩
    · rintro ⟨⟨hr,h0⟩,h⟩
      have hloc := ((hnode e.1).1 ⟨hr,h⟩).1
      exact ⟨⟨hloc.1,(hq.inside_onNode hloc.1 hq.me).2 hloc.2⟩,h0⟩
  · rw [isMemberCoord_iff] at hin
    refine ⟨fun e => iff_of_false (fun he => toEmpty_member new _ he.1) fun he => hin ((hnode e.1).1 ⟨he.1.1,he.2⟩).2,le_rfl⟩

end Local

def NotAxial : AnyTopology → Prop
  | .EPLIST _ => True
  | .tasks t => ∀ ll ur center, t.type ≠ .AXIAL ll ur center

/-- The local part of an axial neighborhood is one again, around the center that the target had. -/
def ReadsCenter (q : Nodes) (m : Mapping) (me : ℕ) : AnyTopology → Prop
  | .EPLIST _ => False
  | .tasks t => ∃ ll ur center, t.type = .AXIAL ll ur center ∧
      isMemberCoord ll ur (m.task2network me) q.torusDims = true ∧ q.torusDims < m.globalDims

theorem nth_of_nodes (hm : m.Bijective n) (hq : q.Placed m n me) {T : AnyTopology} (ht : T.ValidEndpoints m n K)
    (new : Topology) (k : ℕ) : NthOfNodes q m n k T (T.subTopologyNthGlobal q m new k) := by
  cases T with
  | EPLIST l => exact nth_list hq ht new k
  | tasks t =>
    cases hk : t.type with
    | COORD ll ur =>
      have hv := ht.tasks.2
      simp only [tasksOnly,hk] at hv
      exact nth_coord hm hq hk hv.1 new k
    | _ =>
      simp only [subTopologyNthGlobal,hk]
      exact nth_ranks hm hq ht _ k

theorem local_of_notAxial (hq : q.Placed m n me) {T : AnyTopology} (ht : T.ValidEndpoints m n K) (hne : T.NotAxial)
    (new : Topology) (stale : Coord) : LocalToMe q m n me T (T.subTopologyLocalToMe q m me new stale) := by
  cases T with
  | EPLIST l =>
    refine ⟨fun e => ?_,le_rfl⟩
    simp only [subTopologyLocalToMe,entry_list,mem_filter,mem_endpoints (m := m) (n := n),isPeer_iff]
  | tasks t =>
    have hv := ht.tasks.2
    simp only [tasksOnly] at hv
    have hloc (ranks : List ℕ) (hranks : ∀ r, r ∈ ranks ↔ t.Member m n r) (hnod : ranks.Nodup) :=
      (local_ranks hq hranks hnod : LocalToMe q m n me (.tasks t) (localRanks q me new t ranks))
    cases hk : t.type with
    | AXIAL ll ur center => exact absurd hk (hne ll ur center)
    | COORD ll ur => exact local_coord hq hk stale
    | EMPTY =>
      simp only [subTopologyLocalToMe,hk]
      refine hloc [] (fun r => ?_) nodup_nil
      simp [Topology.Member,hk]
    | SINGLE rank =>
      simp only [subTopologyLocalToMe,hk] at hv ⊢
      refine ⟨fun e => ?_,le_rfl⟩
      simp only [Entry]
      split_ifs with h
      · rw [isPeer_iff] at h
        refine (and_iff_left_of_imp fun he => ?_).symm
        rw [Topology.Member,hk] at he
        exact he.1.2 ▸ h
      · refine iff_of_false (fun he => toEmpty_member new _ he.1) fun he => h (isPeer_iff.2 ?_)
        rw [Topology.Member,hk] at he
        exact he.1.1.2 ▸ he.2
    | RANGE first last =>
      simp only [subTopologyLocalToMe,hk] at hv ⊢
      refine hloc _ (fun r => ?_) nodup_range'
      rw [Topology.Member,hk,mem_range'_1]
      simp only
      omega
    | LIST ranklist =>
      simp only [subTopologyLocalToMe,hk] at hv ⊢
      refine hloc _ (fun r => ?_) ?_
      · rw [Topology.Member,hk]
        simp only [mem_map,mem_range]
        refine ⟨fun h => ?_,And.right⟩
        obtain ⟨i,hi,he⟩ := h
        exact ⟨he ▸ hv.1 i hi,i,hi,he⟩
      · rw [nodup_map_iff_inj_on nodup_range]
        simpa only [mem_range] using hv.2

theorem local_axial {center : Coord} (hk : t.type = .AXIAL ll ur center) (stale : Coord)
    (hr : ¬(AnyTopology.tasks t).ReadsCenter q m me) :
    LocalToMe q m n me (.tasks t) (subTopologyLocalToMe q m me new stale (.tasks t)) ↔
      ∀ e, (AnyTopology.tasks t).Entry m n e → q.node e.1 ≠ q.node me := by
  have hempty : subTopologyLocalToMe q m me new stale (.tasks t) = ⟨.tasks new.toEmpty,0,0⟩ := by
    simp only [subTopologyLocalToMe,hk]
    refine if_neg fun ⟨hin,hlocals⟩ => hr ⟨ll,ur,center,hk,hin,?_⟩
    by_contra hle
    exact hlocals (by rw [Nat.sub_eq_zero_of_le (Nat.not_lt.1 hle),range'_zero])
  have hnone : ∀ e, ¬(AnyTopology.tasks new.toEmpty).Entry m n e := fun e he => toEmpty_member new _ he.1
  rw [hempty]
  constructor
  · intro h e he hnode
    exact hnone e ((h.entry e).2 ⟨he,hnode⟩)
  · intro h
    exact ⟨fun e => iff_of_false (hnone e) fun he => h e he.1 he.2,le_rfl⟩

/-- Both sub-topologies; the local part of an axial neighborhood is empty where no center is read. -/
theorem subTopologies_iff (hm : m.Bijective n) (hq : q.Placed m n me) {T : AnyTopology}
    (ht : T.ValidEndpoints m n K) (new : Topology) (stale : Coord) :
    (∀ k, NthOfNodes q m n k T (T.subTopologyNthGlobal q m new k)) ∧ (¬T.ReadsCenter q m me →
      (LocalToMe q m n me T (T.subTopologyLocalToMe q m me new stale) ↔
        T.NotAxial ∨ ∀ e, T.Entry m n e → q.node e.1 ≠ q.node me)) := by
  refine ⟨nth_of_nodes hm hq ht new,fun hr => ?_⟩
  by_cases hne : T.NotAxial
  · exact iff_of_true (local_of_notAxial hq ht hne new stale) (.inl hne)
  · cases T with
    | EPLIST l => exact absurd trivial hne
    | tasks t =>
      have hax := hne
      simp only [NotAxial,not_forall,not_not] at hax
      obtain ⟨ll,ur,center,hk⟩ := hax
      rw [local_axial hk stale hr,or_iff_right hne]

/-- The rows of the grid as nodes of four tasks. -/
def rowNodes : Nodes := ⟨1, fun r => (r / 4, r % 4), 4, 4⟩

theorem rowNodes_placed (hme : me<16) : rowNodes.Placed grid 16 me where
  dims := by decide
  node r _ r' _ := by
    constructor
    · intro h x hx
      obtain rfl : x=0 := Nat.lt_one_iff.1 hx
      exact h
    · intro h
      exact h 0 Nat.one_pos
  active rl hrl hnod := by
    have hsub : rl.map rowNodes.node ⊆ range 4 := by
      intro a ha
      obtain ⟨r,hr,rfl⟩ := mem_map.1 ha
      exact mem_range.2 (Nat.div_lt_of_lt_mul (hrl r hr))
    have hle := (hnod.subperm hsub).length_le
    rwa [length_map,length_range] at hle
  peers rl hnod hrl := by
    have hsub : rl ⊆ range' (me/4*4) 4 := by
      intro r hr
      have h : r/4=me/4 := (hrl r hr).2
      rw [mem_range'_1]
      omega
    exact (hnod.subperm hsub).length_le
  me := hme

theorem cross_validEndpoints : (AnyTopology.tasks cross).ValidEndpoints grid 16 1 :=
  ⟨⟨rfl,by decide,by decide⟩,fun _ => Nat.zero_lt_one,nofun,nofun⟩

/-- The row of task 13 has no task of the cross. -/
theorem subTopologies_of_cross :
    NthOfNodes rowNodes grid 16 1 (.tasks cross) (subTopologyNthGlobal rowNodes grid segment 1 (.tasks cross)) ∧
      LocalToMe rowNodes grid 16 13 (.tasks cross)
        (subTopologyLocalToMe rowNodes grid 13 segment (fun _ => 0) (.tasks cross)) := by
  have hsub := subTopologies_iff grid_bijective (rowNodes_placed (show 13<16 by decide)) cross_validEndpoints
    segment fun _ => 0
  refine ⟨hsub.1 1,(hsub.2 ?_).2 (.inr ?_)⟩
  · rintro ⟨ll,ur,center,hk,hin,-⟩
    cases hk
    exact absurd hin (by decide)
  · have hrow : ∀ r, r=12 ∨ r=13 ∨ r=14 ∨ r=15 → ¬cross.Member grid 16 r := by
      rintro r (rfl | rfl | rfl | rfl) <;> (simp only [Topology.Member,cross]; decide)
    rintro ⟨r,c⟩ ⟨hon,-⟩ hnode
    have hlt : r<16 := hon.1
    have h3 : r/4=3 := hnode
    exact hrow r (by omega) hon

/-- The local part of an axial neighborhood has another center, here task 0 of another node. -/
theorem not_localToMe : grid.Bijective 16 ∧ rowNodes.Placed grid 16 5 ∧
    (AnyTopology.tasks cross).ValidEndpoints grid 16 1 ∧ ¬LocalToMe rowNodes grid 16 5 (.tasks cross)
        (subTopologyLocalToMe rowNodes grid 5 cross (fun _ => 0) (.tasks cross)) := by
  refine ⟨grid_bijective,rowNodes_placed (by decide),cross_validEndpoints,
    fun h => absurd ((h.entry (0, 0)).1 ⟨⟨by decide,.inl ?_⟩,rfl⟩).2 (by decide)⟩
  decide

end AnyTopology

end PAMI.Common
