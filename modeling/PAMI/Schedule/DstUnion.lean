import PAMI.Schedule.NodeOptCollectives

namespace PAMI.Math

open List Nat

section Gather

variable {α : Type*} {r n : ℕ} {l : List α} {ls : List (List α)}

/-- Lists are put one after the other as long as there is room for `r` elements, whatever their lengths. -/
@[grind =] def gather (r n : ℕ) : List (List α) → List α → Bool × List α
  | [], kept => (true, kept)
  | l :: ls, kept => if n < r + kept.length then (false, kept) else gather r n ls (kept ++ l)

/-- What is kept when the last list is looked at. -/
def before (ls : List (List α)) : ℕ := (ls.map List.length).dropLast.sum

theorem before_cons {k : List α} : before (l :: k :: ls) = l.length+before (k :: ls) := by
  simp [before]

theorem before_le (hls : ∀ m ∈ ls, m.length ≤ r) : before ls ≤ ls.length*r := by
  induction ls with
  | nil => simp [before]
  | cons m ls ih =>
    cases ls with
    | nil => simp [before]
    | cons k ls =>
      have hrs := ih fun m hm => hls m (by simp [hm])
      rw [before_cons,length_cons,succ_mul,Nat.add_comm]
      exact Nat.add_le_add hrs (hls m (by simp))

theorem gather_of_true (h : (gather r n ls l).1=true) : (gather r n ls l).2 = l ++ ls.flatten := by
  induction ls generalizing l with
  | nil => simp [gather]
  | cons m ls ih =>
    rw [gather] at h ⊢
    split at h
    case isTrue => cases h
    case isFalse hrm => rw [if_neg hrm,ih h,flatten_cons,append_assoc]

theorem gather_iff : (gather r n ls l).1=true ↔ ls = [] ∨ r+l.length+before ls ≤ n := by
  induction ls generalizing l with
  | nil => simp [gather]
  | cons m ls ih =>
    rw [gather]
    cases ls with
    | nil =>
      simp only [gather,before]
      split <;> simp <;> omega
    | cons k ls =>
      rw [before_cons]
      split
      case isTrue => simp; omega
      case isFalse => rw [ih,length_append]; simp [add_assoc]

theorem gather_length_le (hl : l.length≤n) (hls : ∀ m ∈ ls.dropLast, m.length ≤ r)
    (hfull : (gather r n ls l).1=false) : (gather r n ls l).2.length≤n := by
  induction ls generalizing l with
  | nil => exact hl
  | cons m ls ih =>
    rw [gather] at hfull ⊢
    split
    case isTrue => exact hl
    case isFalse hrm =>
      rw [if_neg hrm] at hfull
      cases ls with
      | nil => simp [gather] at hfull
      | cons k ls =>
        have hm := hls m (by simp)
        refine ih (by simp; omega) (fun m hm => hls m ?_) hfull
        rw [dropLast_cons_cons]
        exact mem_cons_of_mem _ hm

theorem gather_length_le_iff (hls : ∀ m ∈ ls.dropLast, m.length ≤ r) : (gather r n ls []).2.length≤n ↔
    (gather r n ls []).1=false ∨ ls.flatten.length≤n := by
  cases hok : (gather r n ls []).1 with
  | true => simp [gather_of_true hok]
  | false => simpa using gather_length_le (zero_le n) hls hok

theorem flatten_length_le (hls : ∀ m ∈ ls, m.length ≤ r) (hok : (gather r n ls []).1=true) : ls.flatten.length≤n := by
  obtain rfl | ⟨ms,m,rfl⟩ := ls.eq_nil_or_concat'
  · simp
  · have hla := hls m (by simp)
    have hrm := gather_iff.mp hok
    simp [before,length_flatten] at hrm ⊢
    omega

end Gather

end PAMI.Math

namespace PAMI.Schedule

open PAMI.Math CollectiveOperation PhaseCode MultinomialTree MultinomialTreeT List Option Nat

namespace MultinomialTreeT

variable (t : MultinomialTreeT) (numEps : ℕ)

/-- The rank sends in a phase. -/
def Sends (ph : ℕ) : Prop := t.Communicates false ph ∨ t.auxph false = phase ph

instance (ph : ℕ) : Decidable (t.Sends ph) := inferInstanceAs (Decidable (_ ∨ _))

/-- The loop of `getDstUnionTopology`: whether it gets to its end, and what is in the caller's array. -/
@[grind =] def dstUnion : List ℕ → List ℕ → Bool × List ℕ
  | [], eps => (true, eps)
  | ph :: phs, eps =>
    if t.Sends ph then
      if numEps < t.radix + eps.length then (false, eps) else dstUnion phs (eps ++ t.nextNodes false ph)
    else dstUnion phs eps

def phases : List ℕ := List.range' t.context.st t.context.np

/-- The destinations, none for `PAMI_ENOMEM`, and how many entries were written. -/
def getDstUnionTopology : Option (List ℕ) × ℕ :=
  let (ok, eps) := t.dstUnion numEps t.phases []
  (if ok then some (eps.map t.map.getGlobalRank) else none, eps.length)

/-- The loop of `setSchedule`; the number of entries is an `unsigned`. -/
@[grind =] def setSchedule : ℕ → ℕ → Option (List ℕ)
  | 0, _ => none
  | fuel + 1, numEps => (t.getDstUnionTopology numEps).1.or (setSchedule fuel (numEps * 2 % 2 ^ 32))

/-- The array is large enough for what is written, and all destinations are returned, each once. -/
structure Unites : Prop where
  written : (t.getDstUnionTopology numEps).2 ≤ numEps
  complete : ∀ dst ∈ (t.getDstUnionTopology numEps).1, dst = t.phases.flatMap t.getDstTopology ∧ dst.Nodup

def sent : List (List ℕ) := (t.phases.filter fun ph => t.Sends ph).map (t.partnerRanks false)

variable {t numEps}

theorem dstUnion_eq (phs eps : List ℕ) : t.dstUnion numEps phs eps =
    gather t.radix numEps ((phs.filter fun ph => t.Sends ph).map (t.partnerRanks false)) eps := by
  induction phs generalizing eps with
  | nil => rfl
  | cons ph phs ih =>
    by_cases h : t.Sends ph
    · have hnds : t.partnerRanks false ph = t.nextNodes false ph := if_pos h
      simp [dstUnion,gather,h,hnds,ih]
    · simp [dstUnion,h,ih]

theorem sent_flatten : t.sent.flatten = t.phases.flatMap (t.partnerRanks false) := by
  rw [sent]
  induction t.phases with
  | nil => rfl
  | cons ph phs ih =>
    by_cases h : t.Sends ph
    · simp [h,ih]
    · have hnil : t.partnerRanks false ph = [] := if_neg h
      simp [h,ih,hnil]

theorem flatMap_getDstTopology : t.phases.flatMap t.getDstTopology = t.sent.flatten.map t.map.getGlobalRank := by
  rw [sent_flatten,map_flatMap]
  rfl

theorem unites_iff (hsho : ∀ m ∈ t.sent.dropLast, m.length≤t.radix) : t.Unites numEps ↔
    (t.sent ≠ [] ∧ numEps < t.radix+before t.sent) ∨
      (t.sent.flatten.length≤numEps ∧ (t.sent.flatten.map t.map.getGlobalRank).Nodup) := by
  have huni : t.dstUnion numEps t.phases [] = gather t.radix numEps t.sent [] := dstUnion_eq _ _
  have hok : (gather t.radix numEps t.sent []).1=false ↔ t.sent ≠ [] ∧ numEps<t.radix+before t.sent := by
    rw [← Bool.not_eq_true,gather_iff]
    simp
  rw [← hok]
  constructor
  · rintro ⟨hwri,hcom⟩
    simp only [getDstUnionTopology,huni] at hwri hcom
    cases hc : (gather t.radix numEps t.sent []).1 with
    | false => exact .inl rfl
    | true =>
      simp only [hc,if_true,mem_some_iff,forall_eq',gather_of_true hc,nil_append] at hwri hcom
      exact .inr ⟨hwri,hcom.2⟩
  · intro h
    refine ⟨?_,?_⟩ <;> simp only [getDstUnionTopology,huni]
    · exact (gather_length_le_iff hsho).mpr (h.imp_right And.left)
    · cases hc : (gather t.radix numEps t.sent []).1 with
      | false => simp
      | true =>
        simp only [if_true,mem_some_iff,forall_eq',gather_of_true hc,nil_append,flatMap_getDstTopology]
        exact ⟨trivial,(h.resolve_left (by simp [hc])).2⟩

theorem setSchedule_isSome (hsn : t.radix+before t.sent ≤ 2^31) (hpos : 0<numEps) (hlt : numEps<2^32) :
    ∃ fuel, (t.setSchedule fuel numEps).isSome := by
  obtain ⟨k,hk⟩ : ∃ k, 2^32≤numEps+k := ⟨2^32,by omega⟩
  induction k generalizing numEps with
  | zero => omega
  | succ k ih =>
    by_cases hrm : t.radix+before t.sent≤numEps
    · have hok : (gather t.radix numEps t.sent []).1=true := gather_iff.mpr (.inr (by simpa using hrm))
      refine ⟨1,?_⟩
      have huni : t.dstUnion numEps t.phases [] = gather t.radix numEps t.sent [] := dstUnion_eq _ _
      simp [setSchedule,getDstUnionTopology,huni,hok]
    · have hdou : numEps*2%2^32=numEps*2 := mod_eq_of_lt (by omega)
      obtain ⟨fuel,hfuel⟩ : ∃ fuel, (t.setSchedule fuel (numEps*2)).isSome := ih (by omega) (by omega) (by omega)
      refine ⟨fuel+1,?_⟩
      rw [setSchedule,hdou,isSome_or,hfuel,Bool.or_true]

end MultinomialTreeT

/-- The tree over a `TopologyMap` as one over any map. -/
def MultinomialTree.general (t : MultinomialTree) : MultinomialTreeT :=
  ⟨t.map.toMap, t.radix, t.logradix, t.nphbino, t.maxphases, t.context⟩

section Trees

variable {t : MultinomialTree} {d : Dims} {op : CollectiveOperation} {p q : ℕ}

theorem Fits.length_le (h : Fits t d op) (p : ℕ) : (t.partnerRanks false p).length≤t.radix := by
  have hrad : 2^1≤2^d.logradix := Nat.pow_le_pow_right two_pos d.logradix_pos
  rw [h.partnerRanks_eq,h.radix]
  split_ifs <;> simp [bino] <;> omega

theorem Fits.mem_partnerRanks (h : Fits t d op) {b : ℕ} (hb : b ∈ t.partnerRanks false p) :
    (t.map.getMyRank<d.hnranks ∧ b<d.hnranks ∧ b ∈ d.exchange t.map.getMyRank p ∧ 1≤p) ∨
      (t.auxph false = phase p ∧ (d.hnranks≤t.map.getMyRank ∨ d.hnranks≤b)) := by
  rw [h.partnerRanks_eq] at hb
  split_ifs at hb with hc haux hr hpe
  · have hlt := h.lt_of_communicates hc
    exact .inl ⟨hlt,d.exchange_lt ⟨hc.1,h.nphbino ▸ hc.2.1⟩ hlt hb,hb,hc.1⟩
  · exact .inr ⟨haux,.inl hr⟩
  · simp only [mem_singleton] at hb
    exact .inr ⟨haux,.inr (by omega)⟩
  all_goals cases hb

theorem exchange_disjoint {a b : ℕ} (hpos : 1≤p) (hpq : p<q) (hp : b ∈ d.exchange a p) : b ∉ d.exchange a q := by
  intro hq
  obtain ⟨x,hx,rfl⟩ := d.mem_exchange.mp hp
  obtain ⟨y,hy,heq⟩ := d.mem_exchange.mp hq
  have hsm : x*2^((p-1)*d.logradix)=y*2^((q-1)*d.logradix) := by
    simpa [shiftLeft_eq] using xor_right_injective heq
  have hlow : x*2^((p-1)*d.logradix)<2^(p*d.logradix) :=
    shiftLeft_eq x _ ▸ digit_lt hx.2 (sub_lt hpos one_pos)
  have hhg : 2^(p*d.logradix)≤y*2^((q-1)*d.logradix) :=
    le_trans (Nat.pow_le_pow_right two_pos (Nat.mul_le_mul_right _ (by omega))) (Nat.le_mul_of_pos_left _ hy.1)
  omega

theorem Fits.disjoint (h : Fits t d op) (hpq : p<q) : (t.partnerRanks false p).Disjoint (t.partnerRanks false q) := by
  intro b hp hq
  rcases h.mem_partnerRanks hp with ⟨hr,hb,hex,hpos⟩ | ⟨haux,hout⟩ <;>
    rcases h.mem_partnerRanks hq with ⟨hr',hb',hex',-⟩ | ⟨haux',hout'⟩
  · exact exchange_disjoint hpos hpq hex hex'
  · omega
  · omega
  · have hsm := haux.symm.trans haux'
    cases hsm
    exact lt_irrefl _ hpq

variable {maxRadix root e : ℕ} {topology : Topology}

/-- The tree of an endpoint for a root and an operation. -/
def treeOf (maxRadix : ℕ) (topology : Topology) (root : ℕ) (op : CollectiveOperation) (e : ℕ) : MultinomialTreeT :=
  (init maxRadix topology root op e).general

variable (maxRadix op) in
theorem treeOf_short (hrt : root ∈ topology) (he : e ∈ topology) :
    ∀ m ∈ (treeOf maxRadix topology root op e).sent, m.length≤(treeOf maxRadix topology root op e).radix := by
  have h : Fits _ (dims maxRadix (Topology.size_pos hrt)) op := init_fits _ hrt he
  intro m hm
  obtain ⟨p,-,rfl⟩ := List.mem_map.mp hm
  exact h.length_le p

theorem treeOf_unites (hrt : root ∈ topology) (he : e ∈ topology) (numEps : ℕ) :
    (treeOf maxRadix topology root op e).Unites numEps := by
  have h : Fits _ (dims maxRadix (Topology.size_pos hrt)) op := init_fits _ hrt he
  have hsho := treeOf_short op maxRadix hrt he
  refine (unites_iff fun m hm => hsho m (dropLast_subset _ hm)).mpr ?_
  by_cases hfull : (treeOf maxRadix topology root op e).sent ≠ [] ∧
      numEps<(treeOf maxRadix topology root op e).radix+before (treeOf maxRadix topology root op e).sent
  · exact .inl hfull
  · refine .inr ⟨flatten_length_le hsho (gather_iff.mpr ?_),?_⟩
    · rw [not_and_or,not_not,not_lt] at hfull
      simpa using hfull
    · have hmap : (treeOf maxRadix topology root op e).map.getGlobalRank =
          (TopologyMap.rooted topology (rootIndex topology root op) e).getGlobalRank := by
        show (init maxRadix topology root op e).map.getGlobalRank = _
        rw [init_map]
      rw [hmap,sent_flatten]
      refine getGlobalRank_nodup (rootIndex_lt hrt) (nodup_flatMap.mpr ⟨fun p _ => (h.partnerRanks_spec false p).1,?_⟩) ?_
      · exact List.Pairwise.imp (fun hpq => h.disjoint hpq) (pairwise_lt_range' ..)
      · intro b hb
        obtain ⟨p,-,hb⟩ := mem_flatMap.mp hb
        exact ((h.partnerRanks_spec false p).2 b hb).1

theorem treeOf_room (hrt : root ∈ topology) (he : e ∈ topology) (hsi : topology.size<2^32) :
    (treeOf maxRadix topology root op e).radix+before (treeOf maxRadix topology root op e).sent ≤ 2^31 := by
  have h : Fits _ (dims maxRadix (Topology.size_pos hrt)) op := init_fits _ hrt he
  have hrad : (treeOf maxRadix topology root op e).radix≤8 := by
    show getRadix maxRadix topology.size≤8
    rcases getRadix_cases maxRadix topology.size with ⟨h,-⟩ | ⟨h,-⟩ | h <;> omega
  have hphs : getBinoPhases maxRadix topology.size≤31 := by
    have hlog := (log2_lt (Topology.size_pos hrt).ne').mpr hsi
    have hmul := getBinoPhases_mul maxRadix topology.size
    have hle := Nat.le_mul_of_pos_right (getBinoPhases maxRadix topology.size)
      (getLogRadix_pos (getRadix maxRadix topology.size))
    omega
  have hcou : (treeOf maxRadix topology root op e).sent.length≤33 := by
    rw [sent,length_map,← length_range (n := 33)]
    refine (subperm_of_subset (List.Nodup.filter _ (nodup_range' ..)) fun p hp => ?_).length_le
    have hsen : (treeOf maxRadix topology root op e).Sends p := by simpa using (mem_filter.mp hp).2
    have hla : p≤getBinoPhases maxRadix topology.size+1 := by
      rcases hsen with hc | haux
      · exact le_succ_of_le hc.2.1
      · rcases h.auxph_cases false with hno | hzr | hla
        · cases hno.symm.trans haux
        · cases hzr.symm.trans haux
          exact zero_le _
        · cases hla.symm.trans haux
          exact le_refl _
    rw [mem_range]
    omega
  have hbef := before_le fun m hm => (treeOf_short op maxRadix hrt he m hm).trans hrad
  omega

end Trees

namespace NodeLayout

variable {L : NodeLayout} {platform : Platform} {maxRadix e numEps : ℕ} {op : CollectiveOperation}

/-- Whom an endpoint sends to, phase by phase: a master to other masters and then to its node, the others to their master. -/
def rounds (L : NodeLayout) (maxRadix e : ℕ) : List (List ℕ) :=
  if e ≠ L.masterOf (L.nodeOf e) then [[L.masterOf (L.nodeOf e)]]
  else ((List.range' 1 (L.masterDims maxRadix).phases).map fun p =>
    ((L.masterDims maxRadix).exchange (L.nodeOf e) p).map L.masterOf) ++
      if L.others (L.nodeOf e) = [] then [] else [L.others (L.nodeOf e)]

theorem sends_other (he : e ∈ L.all) (hop : op=BARRIER_OP ∨ op=ALLREDUCE_OP) (haux : e ≠ L.masterOf (L.nodeOf e))
    (p : ℕ) : (L.tree platform maxRadix op e).Sends p ↔ p=0 := by
  obtain ⟨-,⟨hsd,-⟩,⟨haxs,-⟩,-⟩ := tree_context_aux platform maxRadix he hop haux
  simp [MultinomialTreeT.Sends,MultinomialTreeT.Communicates,MultinomialTreeT.mainph,MultinomialTreeT.auxph,hsd,
    haxs,eq_comm]

theorem tree_rounds (he : e ∈ L.all) (hop : op=BARRIER_OP ∨ op=ALLREDUCE_OP) :
    ((L.tree platform maxRadix op e).phases.filter fun p => (L.tree platform maxRadix op e).Sends p).map
      (L.targets maxRadix e) = L.rounds maxRadix e := by
  have hla : L.targets maxRadix e ((L.masterDims maxRadix).phases+1) = if e≠L.masterOf (L.nodeOf e) then []
      else L.others (L.nodeOf e) := by
    simp [targets,partners]
  by_cases hmas : e=L.masterOf (L.nodeOf e)
  · have hsen : ∀ p, (L.tree platform maxRadix op e).Sends p ↔ (1≤p ∧ p≤(L.masterDims maxRadix).phases) ∨
        p=(L.masterDims maxRadix).phases+1 ∧ L.others (L.nodeOf e) ≠ [] := fun p =>
      or_congr (communicates_master platform maxRadix he hop hmas false p) (auxph_master platform maxRadix he hop hmas false p)
    have hmain : (List.range' 1 (L.masterDims maxRadix).phases).filter (fun p => (L.tree platform maxRadix op e).Sends p) =
        List.range' 1 (L.masterDims maxRadix).phases := by
      refine filter_eq_self.mpr fun p hp => decide_eq_true ((hsen p).mpr (.inl ?_))
      rw [mem_range'_1] at hp
      omega
    have htrg : (List.range' 1 (L.masterDims maxRadix).phases).map (L.targets maxRadix e) =
        (List.range' 1 (L.masterDims maxRadix).phases).map fun p =>
          ((L.masterDims maxRadix).exchange (L.nodeOf e) p).map L.masterOf := by
      refine map_congr_left fun p hp => ?_
      rw [mem_range'_1] at hp
      rw [targets,partners,if_neg (not_not.mpr hmas),if_pos (by omega)]
    rw [rounds,if_neg (not_not.mpr hmas),← htrg,phases]
    obtain ⟨-,⟨hnil,⟨hst,hnp⟩,-⟩ | ⟨hne,⟨hst,hnp⟩,-⟩⟩ := tree_context_master platform maxRadix he hop hmas
    · rw [hst,hnp,hmain,if_pos hnil,append_nil]
    · have hzr : ¬ (L.tree platform maxRadix op e).Sends 0 := by simp [hsen]
      have hfin : (L.tree platform maxRadix op e).Sends ((L.masterDims maxRadix).phases+1) := by simp [hsen,hne]
      rw [hst,hnp,range'_succ,filter_cons_of_neg (by simpa using hzr),zero_add,range'_1_concat,
        filter_append,hmain,add_comm 1,filter_cons_of_pos (by simpa using hfin)]
      simp [hla,hne,← hmas]
  · obtain ⟨⟨hst,hnp⟩,-⟩ := tree_context_aux platform maxRadix he hop hmas
    rw [phases,hst,hnp,range'_succ]
    simp only [sends_other he hop hmas]
    simp only [filter_cons,decide_true,if_true,zero_add]
    rw [filter_eq_nil_iff.mpr fun p hp => by rw [mem_range'_1] at hp; simp; omega]
    simp [rounds,hmas,targets,partners]

variable (L maxRadix e) in
theorem rounds_short : ∀ m ∈ (L.rounds maxRadix e).dropLast, m.length ≤ getRadix maxRadix L.master.size := by
  intro m hm
  have hexc : ∀ p, (((L.masterDims maxRadix).exchange (L.nodeOf e) p).map L.masterOf).length ≤
      getRadix maxRadix L.master.size := fun p => by
    rw [length_map,Dims.exchange,bino,length_map,length_range',getRadix_eq maxRadix]
    exact sub_le _ _
  rw [rounds] at hm
  split at hm
  case isTrue => simp at hm
  case isFalse =>
    split at hm
    case isTrue =>
      obtain ⟨p,-,rfl⟩ := List.mem_map.mp (dropLast_subset _ (append_nil _ ▸ hm))
      exact hexc p
    case isFalse =>
      rw [dropLast_concat] at hm
      obtain ⟨p,-,rfl⟩ := List.mem_map.mp hm
      exact hexc p

theorem tree_unites_iff (he : e ∈ L.all) (hop : op=BARRIER_OP ∨ op=ALLREDUCE_OP) :
    (L.tree platform maxRadix op e).Unites numEps ↔
      (L.rounds maxRadix e ≠ [] ∧ numEps < getRadix maxRadix L.master.size+before (L.rounds maxRadix e)) ∨
        ((L.rounds maxRadix e).flatten.length≤numEps ∧ ((L.rounds maxRadix e).flatten.map platform.task).Nodup) := by
  have hsn : (L.tree platform maxRadix op e).sent.map (List.map (L.tree platform maxRadix op e).map.getGlobalRank) =
      (L.rounds maxRadix e).map (List.map platform.task) := by
    rw [← tree_rounds he hop,sent,List.map_map,List.map_map]
    exact map_congr_left fun p _ => getDstTopology_eq he hop p
  have hlng : (L.tree platform maxRadix op e).sent.map List.length = (L.rounds maxRadix e).map List.length := by
    simpa [Function.comp_def] using congrArg (List.map List.length) hsn
  have hbef : before (L.tree platform maxRadix op e).sent = before (L.rounds maxRadix e) := by
    rw [before,hlng,before]
  have hemp : (L.tree platform maxRadix op e).sent = [] ↔ L.rounds maxRadix e = [] := by
    rw [← map_eq_nil_iff,hlng,map_eq_nil_iff]
  have hflat : (L.tree platform maxRadix op e).sent.flatten.length=(L.rounds maxRadix e).flatten.length := by
    rw [length_flatten,hlng,length_flatten]
  have hnam : (L.tree platform maxRadix op e).sent.flatten.map (L.tree platform maxRadix op e).map.getGlobalRank =
      (L.rounds maxRadix e).flatten.map platform.task := by
    rw [map_flatten,hsn,map_flatten]
  rw [unites_iff,hbef,hflat,hnam,ne_eq,hemp]
  · rfl
  · intro m hm
    have hmem : m.length ∈ ((L.rounds maxRadix e).map List.length).dropLast := by
      rw [← hlng,← map_dropLast]
      exact List.mem_map_of_mem hm
    rw [← map_dropLast] at hmem
    obtain ⟨m',hm',heq⟩ := List.mem_map.mp hmem
    exact heq ▸ L.rounds_short maxRadix e m' hm'

end NodeLayout

/-- With a `TopologyMap` the array always suffices, or doubling finds room; with a `NodeOptTopoMap` either the call gives up
before the last phase that sends, or there is room for all destinations. -/
theorem getDstUnionTopology_iff (maxRadix : ℕ) :
    (∀ (topology : Topology) (op : CollectiveOperation), ∀ root ∈ topology, ∀ e ∈ topology,
      (∀ numEps, (treeOf maxRadix topology root op e).Unites numEps) ∧
        (topology.size < 2 ^ 32 → ∀ numEps, 0 < numEps → numEps < 2 ^ 32 →
          ∃ fuel, ((treeOf maxRadix topology root op e).setSchedule fuel numEps).isSome)) ∧
      ∀ (L : NodeLayout) (platform : Platform) (op : CollectiveOperation), op = BARRIER_OP ∨ op = ALLREDUCE_OP →
        ∀ e ∈ L.all, ∀ numEps, (L.tree platform maxRadix op e).Unites numEps ↔ (L.rounds maxRadix e ≠ [] ∧
            numEps < getRadix maxRadix L.master.size + before (L.rounds maxRadix e)) ∨
          ((L.rounds maxRadix e).flatten.length ≤ numEps ∧ ((L.rounds maxRadix e).flatten.map platform.task).Nodup) := by
  refine ⟨fun topology op root hrt e he => ⟨treeOf_unites hrt he,fun hsi numEps hpos hlt => ?_⟩,?_⟩
  · exact setSchedule_isSome (treeOf_room hrt he hsi) hpos hlt
  · exact fun L platform op hop e he numEps => NodeLayout.tree_unites_iff he hop

theorem getDstUnionTopology_iff_uneven :
    (treeOf 2 (firstEndpoints 6) 1 BROADCAST_OP 3).Unites 1 ∧
      (∃ fuel, ((treeOf 2 (firstEndpoints 6) 1 BROADCAST_OP 3).setSchedule fuel 1).isSome) ∧
      (NodeLayout.unevenNodes.tree Platform.bgq 2 ALLREDUCE_OP 0).Unites 3 := by
  obtain ⟨hmap,hnode⟩ := getDstUnionTopology_iff 2
  obtain ⟨hunt,hloop⟩ := hmap (firstEndpoints 6) BROADCAST_OP 1 (by decide) 3 (by decide)
  exact ⟨hunt 1,hloop (by decide) 1 (by decide) (by decide),
    (hnode NodeLayout.unevenNodes Platform.bgq ALLREDUCE_OP (.inr rfl) 0 (by decide) 3).mpr (.inr (by decide))⟩

/-- A node of six ranks: there is room for the two destinations that are looked for, and five are written. -/
theorem not_unites : ¬ ((NodeLayout.oneNode (firstEndpoints 6) (by decide)).tree Platform.bgq 2 ALLREDUCE_OP 0).Unites 2 :=
  fun h => absurd h.written (by decide)

end PAMI.Schedule
