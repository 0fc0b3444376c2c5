import PAMI.Schedule.Partners

namespace PAMI.Schedule

open CollectiveOperation PhaseCode PAMI.Math MultinomialTree TopologyMap List Nat

section Active

variable {t : MultinomialTree} {d : Dims} {op : CollectiveOperation}

/-- What `getSrcTopology` says in the phases a rank executes. -/
def activeSrc (t : MultinomialTree) (p : ℕ) : List ℕ := if t.Active p then t.srcRanks p else []

/-- What `getDstTopology` says in the phases a rank executes. -/
def activeDst (t : MultinomialTree) (p : ℕ) : List ℕ := if t.Active p then t.dstRanks p else []

theorem bino_two (r s : ℕ) : bino r s (2^1) 1 = [r ^^^ (1 <<< s)] := by
  simp [bino]

theorem Fits.exchange_partners (h : Fits t d op) (hop : op=BARRIER_OP ∨ op=ALLREDUCE_OP)
    (p : ℕ) :
    t.srcRanks p = d.sources op t.map.getMyRank p ∧ t.dstRanks p = d.targets op t.map.getMyRank p ∧
      (¬ t.Active p → t.srcRanks p = [] ∧ t.dstRanks p = []) := by
  by_cases haux : d.hnranks≤t.map.getMyRank
  · have hv := h.exchange_aux hop haux p
    have hsrc : d.sources op t.map.getMyRank p =
        if p=d.phases+1 then [t.map.getMyRank-d.hnranks] else [] := by
      rcases hop with rfl | rfl
      · rw [Dims.sources,if_pos haux]
      · rw [Dims.sources,if_pos haux]
    have hdst : d.targets op t.map.getMyRank p =
        if p=0 then [t.map.getMyRank-d.hnranks] else [] := by
      rcases hop with rfl | rfl
      · rw [Dims.targets,if_pos haux]
      · rw [Dims.targets,if_pos haux]
    rw [srcRanks,dstRanks,h.partnerRanks_eq,h.partnerRanks_eq,hsrc,hdst]
    simp only [hv.active,hv.recv,hv.send,hv.auxrecv,hv.auxsend,if_pos haux,if_false,true_and]
    intro hp
    rw [if_neg (by omega),if_neg (by omega)]
    exact ⟨rfl,rfl⟩
  · have hv := h.exchange_main hop haux p
    have hsrc : d.sources op t.map.getMyRank p =
        if 1≤p ∧ p≤d.phases then d.exchange t.map.getMyRank p
        else if p=0 ∧ d.IsPeer t.map.getMyRank then [t.map.getMyRank+d.hnranks] else [] := by
      rcases hop with rfl | rfl
      · rw [Dims.sources,if_neg haux]
      · rw [Dims.sources,if_neg haux]
    have hdst : d.targets op t.map.getMyRank p =
        if 1≤p ∧ p≤d.phases then d.exchange t.map.getMyRank p
        else if p=d.phases+1 ∧ d.IsPeer t.map.getMyRank then
          [t.map.getMyRank+d.hnranks] else [] := by
      rcases hop with rfl | rfl
      · rw [Dims.targets,if_neg haux]
      · rw [Dims.targets,if_neg haux]
    rw [srcRanks,dstRanks,h.partnerRanks_eq,h.partnerRanks_eq,hsrc,hdst]
    simp only [hv.active,hv.recv,hv.send,hv.auxrecv,hv.auxsend,if_neg haux,Dims.exchange]
    by_cases hpe : d.IsPeer t.map.getMyRank
    · simp only [hpe,and_true,if_true,true_and]
      intro hp
      simp only [not_or] at hp
      simp only [if_neg hp.1,if_neg hp.2.1,if_neg hp.2.2,and_self]
    · simp only [hpe,and_false,if_false,or_false,true_and]
      intro hp
      simp only [if_neg hp,and_self]

theorem Fits.reduce_partners (h : Fits t d REDUCE_OP) (hl : d.logradix=1) (p : ℕ) :
    activeSrc t p = d.sources REDUCE_OP t.map.getMyRank p ∧ activeDst t p = d.targets REDUCE_OP t.map.getMyRank p := by
  rw [activeSrc,activeDst,srcRanks,dstRanks,h.partnerRanks_eq,h.partnerRanks_eq,Dims.sources,Dims.targets,hl]
  by_cases haux : d.hnranks≤t.map.getMyRank
  · have hv := h.reduce_aux haux p
    simp only [hv.active,hv.recv,hv.send,hv.auxrecv,hv.auxsend,if_pos haux,if_false]
    split_ifs
    · exact ⟨rfl,rfl⟩
    · exact ⟨rfl,rfl⟩
  · by_cases hr : t.map.getMyRank=0
    · have hv := h.reduce_root haux hr p
      simp only [hv.active,hv.recv,hv.send,hv.auxrecv,hv.auxsend,if_neg haux,if_false]
      by_cases hp : 1≤p ∧ p≤d.phases
      · obtain ⟨q,rfl⟩ : ∃ q, p=q+1 := ⟨p-1,by omega⟩
        have hmod : t.map.getMyRank%2^(q+1)=0 := by rw [hr,zero_mod]
        have hhalf : ¬ t.map.getMyRank%2^(q+1)=2^q := by
          rw [hmod]
          exact (Nat.two_pow_pos q).ne
        simp only [hp,and_self,true_or,if_true,if_pos hmod,Nat.add_sub_cancel,if_neg hhalf,
          bino_two,xor_of_mod_eq_zero hmod]
      · by_cases hpe : p=0 ∧ d.IsPeer t.map.getMyRank
        · simp only [hp,false_or,if_false,if_pos hpe,if_pos hpe.2,and_self]
        · simp only [hp,false_or,if_false,if_neg hpe,and_self]
    · have hlt : t.map.getMyRank<2^d.phases := by
        have hlt := not_le.mp haux
        rw [Dims.hnranks,hl,mul_one] at hlt
        exact hlt
      obtain ⟨j,hj,-⟩ := ffs_bits hr
      have hmod := mod_two_pow_eq_zero_iff hr
      have hle := ffs_le hr hlt
      have hv := h.reduce_main haux hr (by omega) hle p
      simp only [hv.active,hv.recv,hv.send,hv.auxrecv,hv.auxsend,if_neg haux,if_false]
      generalize ffs t.map.getMyRank=f at hmod hj hle
      by_cases hp : 1≤p ∧ p≤d.phases
      · obtain ⟨q,rfl⟩ : ∃ q, p=q+1 := ⟨p-1,by omega⟩
        have hhalf := mod_two_pow_eq_half_iff t.map.getMyRank q
        rw [hmod,hmod] at hhalf
        have hne : ¬ q+1=0 := succ_ne_zero q
        simp only [hp.1,hp.2,and_self,true_and,if_true,bino_two,Nat.add_sub_cancel,hne,
          false_and,or_false,if_false]
        rcases lt_trichotomy (q+1) f with hlt | heq | hgt
        · have hzr := (hmod (q+1)).mpr hlt
          have hone : ¬ t.map.getMyRank%2^(q+1)=2^q := fun h => (hhalf.mp h).2 hlt
          simp only [hlt.le,if_true,if_pos hlt.ne,if_neg hlt.ne,if_pos hzr,if_neg hone,
            xor_of_mod_eq_zero hzr,and_self]
        · have hone := hhalf.mpr ⟨by omega,by omega⟩
          have hzr : ¬ t.map.getMyRank%2^(q+1)=0 := by
            rw [hmod]
            omega
          have hsd : ¬ q+1≠f := not_not.mpr heq
          simp only [if_pos heq.le,if_neg hsd,if_pos heq,if_neg hzr,if_pos hone,
            xor_of_mod_eq_half hone,and_self]
        · have hzr : ¬ t.map.getMyRank%2^(q+1)=0 := by
            rw [hmod]
            omega
          have hone : ¬ t.map.getMyRank%2^(q+1)=2^q := fun h => absurd (hhalf.mp h).1 (by omega)
          simp only [not_le.mpr hgt,if_false,if_neg hzr,if_neg hone,and_self]
      · have hf : ¬ (1≤p ∧ p≤f) := fun h => hp ⟨h.1,le_trans h.2 hle⟩
        have hsd : ¬ p=f := by omega
        have hrecv : ¬ (1≤p ∧ p≤d.phases ∧ p≠f) := fun h => hp ⟨h.1,h.2.1⟩
        simp only [hp,hf,false_or,if_neg hsd,if_neg hrecv,if_false]
        by_cases hpe : p=0 ∧ d.IsPeer t.map.getMyRank
        · simp only [if_pos hpe,if_pos hpe.2,and_self]
        · simp only [if_neg hpe,and_self]

theorem Fits.broadcast_partners (h : Fits t d BROADCAST_OP) (hl : d.logradix=1) (p : ℕ) :
    activeSrc t p = d.sources BROADCAST_OP t.map.getMyRank p ∧
      activeDst t p = d.targets BROADCAST_OP t.map.getMyRank p := by
  rw [activeSrc,activeDst,srcRanks,dstRanks,h.partnerRanks_eq,h.partnerRanks_eq,Dims.sources,Dims.targets,hl]
  by_cases haux : d.hnranks≤t.map.getMyRank
  · have hv := h.broadcast_aux haux p
    simp only [hv.active,hv.recv,hv.send,hv.auxrecv,hv.auxsend,if_pos haux,if_false]
    split_ifs
    · exact ⟨rfl,rfl⟩
    · exact ⟨rfl,rfl⟩
  · by_cases hr : t.map.getMyRank=0
    · have hv := h.broadcast_root haux hr p
      simp only [hv.active,hv.recv,hv.send,hv.auxrecv,hv.auxsend,if_neg haux,if_false]
      by_cases hp : 1≤p ∧ p≤d.phases
      · obtain ⟨q,rfl⟩ : ∃ q, p=q+1 := ⟨p-1,by omega⟩
        have hlt : t.map.getMyRank<2^q := by
          rw [hr]
          exact Nat.two_pow_pos q
        have hdiv := div_eq_of_lt hlt
        have hbit := xor_bit_of_even (show t.map.getMyRank/2^q%2=0 by rw [hdiv])
        simp only [hp,and_self,true_or,if_true,Nat.add_sub_cancel,bino_two,hlt,hdiv,
          zero_ne_one,if_false,hbit]
      · by_cases hpe : p=d.phases+1 ∧ d.IsPeer t.map.getMyRank
        · simp only [hp,false_or,if_false,if_pos hpe,if_pos hpe.2,and_self]
        · simp only [hp,false_or,if_false,if_neg hpe,and_self]
    · obtain ⟨n,hn,hlow,hhg⟩ := countPhases_rank hr
      have hrad : t.radix=2 := by
        rw [h.radix,hl]
        rfl
      have hle : n+1≤d.phases := by
        have hlt := not_le.mp haux
        rw [Dims.hnranks,hl,mul_one] at hlt
        exact (Nat.pow_lt_pow_iff_right (by decide)).mp (lt_of_le_of_lt hlow hlt)
      have hv := h.broadcast_main haux hr (by rw [hrad,hn]) hle p
      simp only [hv.active,hv.recv,hv.send,hv.auxrecv,hv.auxsend,if_neg haux,if_false]
      by_cases hp : 1≤p ∧ p≤d.phases
      · obtain ⟨q,rfl⟩ : ∃ q, p=q+1 := ⟨p-1,by omega⟩
        have hne : ¬ q+1=d.phases+1 := by omega
        simp only [hp.1,hp.2,and_self,true_and,and_true,if_true,bino_two,Nat.add_sub_cancel,
          hne,false_and,or_false,if_false,Nat.add_le_add_iff_right,Nat.add_right_cancel_iff]
        rcases lt_trichotomy q n with hlt | heq | hgt
        · have hge : 2*2^q≤t.map.getMyRank := by
            rw [mul_comm,← pow_succ]
            exact le_trans (Nat.pow_le_pow_right (by decide) hlt) hlow
          have hdiv : ¬ t.map.getMyRank/2^q=1 := by
            have h2 := (Nat.le_div_iff_mul_le (Nat.two_pow_pos q)).mpr hge
            omega
          have hge' : ¬ t.map.getMyRank<2^q := by omega
          simp only [not_le.mpr hlt,if_false,if_neg hdiv,if_neg hge',and_self]
        · subst heq
          have hdiv : t.map.getMyRank/2^q=1 := by
            apply Nat.div_eq_of_lt_le
            · rw [one_mul]
              exact hlow
            · rw [mul_comm,← pow_succ]
              exact hhg
          have hbit := xor_bit_of_odd (show t.map.getMyRank/2^q%2=1 by rw [hdiv])
          simp only [le_refl,if_true,hdiv,ne_eq,not_true_eq_false,if_false,not_lt.mpr hlow,hbit,and_self]
        · have hlt : t.map.getMyRank<2^q := lt_of_lt_of_le hhg (Nat.pow_le_pow_right (by decide) hgt)
          have hdiv := div_eq_of_lt hlt
          have hbit := xor_bit_of_even (show t.map.getMyRank/2^q%2=0 by rw [hdiv])
          simp only [hgt.le,ne_eq,Nat.add_right_cancel_iff,hgt.ne',not_false_eq_true,if_true,
            hdiv,zero_ne_one,if_false,hlt,hbit,and_self]
      · have hf : ¬ (n+1≤p ∧ p≤d.phases) := by omega
        have hrecv : ¬ p=n+1 := by omega
        have hsd : ¬ (1≤p ∧ p≤d.phases ∧ p≠n+1) := fun h => hp ⟨h.1,h.2.1⟩
        simp only [hp,hf,false_or,if_neg hsd,if_neg hrecv,if_false]
        by_cases hpe : p=d.phases+1 ∧ d.IsPeer t.map.getMyRank
        · simp only [if_pos hpe,if_pos hpe.2,and_self]
        · simp only [if_neg hpe,and_self]

end Active

namespace Dims

variable (d : Dims) {op : CollectiveOperation} {a b p : ℕ}

theorem mem_exchange : b ∈ d.exchange a p ↔
    ∃ r, (1 ≤ r ∧ r<2^d.logradix) ∧ b = a ^^^ (r <<< ((p-1)*d.logradix)) := by
  have hpos := Nat.two_pow_pos d.logradix
  simp only [exchange,bino,mem_map,mem_range'_1]
  constructor
  · rintro ⟨r,hr,rfl⟩
    exact ⟨r,⟨hr.1,by omega⟩,rfl⟩
  · rintro ⟨r,hr,rfl⟩
    exact ⟨r,⟨hr.1,by omega⟩,rfl⟩

theorem mem_exchange_comm : b ∈ d.exchange a p ↔ a ∈ d.exchange b p := by
  simp only [mem_exchange]
  constructor
  · rintro ⟨r,hr,h⟩
    exact ⟨r,hr,xor_eq_iff.mp h⟩
  · rintro ⟨r,hr,h⟩
    exact ⟨r,hr,xor_eq_iff.mp h⟩

theorem exchange_lt (hp : 1≤p ∧ p≤d.phases) (ha : a<d.hnranks) (hb : b ∈ d.exchange a p) :
    b<d.hnranks := by
  obtain ⟨r,hr,rfl⟩ := d.mem_exchange.mp hb
  exact xor_lt_two_pow ha (digit_lt hr.2 (by omega))

theorem exchange_ne (hb : b ∈ d.exchange a p) : b≠a := by
  obtain ⟨r,hr,rfl⟩ := d.mem_exchange.mp hb
  apply xor_ne_self
  rw [shiftLeft_eq]
  exact (mul_pos (by omega) (Nat.two_pow_pos _)).ne'

theorem exchange_nodup : (d.exchange a p).Nodup := by
  apply List.Nodup.map_on _ nodup_range'
  intro x _ y _ hxy
  have hdiv := congrArg (· / 2^((p-1)*d.logradix)) hxy
  simp only [xor_shiftLeft_div] at hdiv
  rw [Nat.xor_comm,Nat.xor_comm _ y] at hdiv
  rw [← xor_xor_cancel_right x,hdiv,xor_xor_cancel_right]

theorem block_fits (hp : p≤d.phases) (hb : b<d.hnranks) (hmod : b%2^p=0) :
    b+2^p≤d.hnranks := by
  have hdvd : 2^p ∣ d.hnranks := Nat.pow_dvd_pow 2 (le_trans hp (Nat.le_mul_of_pos_right _ d.logradix_pos))
  obtain ⟨c,hc⟩ := hdvd
  obtain ⟨e,rfl⟩ := dvd_of_mod_eq_zero hmod
  rw [hc] at hb ⊢
  rw [← mul_succ]
  exact Nat.mul_le_mul_left _ (Nat.lt_of_mul_lt_mul_left hb)

theorem half_iff (q : ℕ) :
    (a%2^(q+1)=2^q ∧ b=a-2^q) ↔ (b%2^(q+1)=0 ∧ a=b+2^q) := by
  have hpos := Nat.two_pow_pos q
  have hsc : 2^(q+1)=2^q+2^q := by rw [pow_succ,mul_two]
  constructor
  · rintro ⟨hmod,rfl⟩
    have hle : 2^q≤a := hmod ▸ mod_le a _
    refine ⟨?_,by omega⟩
    have hdm := div_add_mod a (2^(q+1))
    have hsub : a-2^q=2^(q+1)*(a/2^(q+1)) := by omega
    rw [hsub,mul_mod_right]
  · rintro ⟨hmod,rfl⟩
    refine ⟨?_,by omega⟩
    rw [add_mod,hmod,zero_add,mod_mod,mod_eq_of_lt (by omega)]

theorem top_iff (q : ℕ) :
    (a<2^q ∧ b=a+2^q) ↔ (b/2^q=1 ∧ a=b-2^q) := by
  have hpos := Nat.two_pow_pos q
  constructor
  · rintro ⟨hlt,rfl⟩
    refine ⟨?_,by omega⟩
    rw [add_div_right _ hpos,div_eq_of_lt hlt]
  · rintro ⟨hdiv,rfl⟩
    have hdm := div_add_mod b (2^q)
    have hlt := mod_lt b hpos
    rw [hdiv,mul_one] at hdm
    omega

theorem mem_targets_iff (op : CollectiveOperation) (p : ℕ) (ha : a<d.nranks) (hb : b<d.nranks) :
    b ∈ d.targets op a p ↔ a ∈ d.sources op b p := by
  have hlow := d.hnranks_le
  have hhg := d.lt_two_hnranks
  have hcomm := d.mem_exchange_comm (a := a) (b := b) (p := p)
  have hlt : 1≤p ∧ p≤d.phases → a<d.hnranks → b ∈ d.exchange a p → b<d.hnranks :=
    fun hp ha hb => d.exchange_lt hp ha hb
  have hlt' : 1≤p ∧ p≤d.phases → b<d.hnranks → a ∈ d.exchange b p → a<d.hnranks :=
    fun hp ha hb => d.exchange_lt hp ha hb
  cases op with
  | BARRIER_OP | ALLREDUCE_OP =>
    simp only [targets,sources,IsPeer]
    grind
  | REDUCE_OP =>
    simp only [targets,sources,IsPeer]
    by_cases hp : 1≤p ∧ p≤d.phases
    · obtain ⟨q,rfl⟩ : ∃ q, p=q+1 := ⟨p-1,by omega⟩
      have hpos := Nat.two_pow_pos q
      have hhalf := half_iff (a := a) (b := b) q
      have hft := d.block_fits (b := b) hp.2
      have hsc : 2^(q+1)=2^q+2^q := by rw [pow_succ,mul_two]
      rw [Nat.add_sub_cancel]
      grind
    · grind
  | BROADCAST_OP =>
    simp only [targets,sources,IsPeer]
    by_cases hp : 1≤p ∧ p≤d.phases
    · obtain ⟨q,rfl⟩ : ∃ q, p=q+1 := ⟨p-1,by omega⟩
      have htop := top_iff (a := a) (b := b) q
      have hft : 2^(q+1)≤d.hnranks :=
        Nat.pow_le_pow_right (by decide) (le_trans hp.2 (Nat.le_mul_of_pos_right _ d.logradix_pos))
      have hsc : 2^(q+1)=2^q+2^q := by rw [pow_succ,mul_two]
      rw [Nat.add_sub_cancel]
      grind
    · grind

end Dims

section Endpoints

variable {maxRadix root : ℕ} {topology : Topology} {op : CollectiveOperation} {t : MultinomialTree}
  {l : List ℕ}

theorem Fits.lt_of_communicates {d : Dims} (h : Fits t d op) {parent : Bool} {p : ℕ}
    (hc : t.Communicates parent p) : t.map.getMyRank<d.hnranks := by
  by_contra hlt
  have haux := not_lt.mp hlt
  have hno (active auxrecv auxsend : Prop)
      (hv : View t p active False False auxrecv auxsend) : False := by
    cases parent with
    | false => exact hv.send.mp hc
    | true => exact hv.recv.mp hc
  cases op with
  | BARRIER_OP => exact hno _ _ _ (h.exchange_aux (.inl rfl) haux p)
  | ALLREDUCE_OP => exact hno _ _ _ (h.exchange_aux (.inr rfl) haux p)
  | REDUCE_OP => exact hno _ _ _ (h.reduce_aux haux p)
  | BROADCAST_OP => exact hno _ _ _ (h.broadcast_aux haux p)

theorem Fits.partnerRanks_spec {d : Dims} (h : Fits t d op) (parent : Bool) (p : ℕ) :
    (t.partnerRanks parent p).Nodup ∧ ∀ b ∈ t.partnerRanks parent p, b<d.nranks ∧ b≠t.map.getMyRank := by
  have hpos : 0<d.hnranks := Nat.two_pow_pos _
  have hlow := d.hnranks_le
  rw [h.partnerRanks_eq]
  split_ifs with hc haux h1 h2
  · refine ⟨d.exchange_nodup,fun b hb => ⟨?_,d.exchange_ne hb⟩⟩
    have hp : 1≤p ∧ p≤d.phases := ⟨hc.1,h.nphbino ▸ hc.2.1⟩
    exact lt_of_lt_of_le (d.exchange_lt hp (h.lt_of_communicates hc) hb) hlow
  · have hr := h.rank
    refine ⟨nodup_singleton _,?_⟩
    intro b hb
    rw [mem_singleton] at hb
    omega
  · rw [Dims.IsPeer] at h2
    refine ⟨nodup_singleton _,?_⟩
    intro b hb
    rw [mem_singleton] at hb
    omega
  · exact ⟨nodup_nil,by simp⟩
  · exact ⟨nodup_nil,by simp⟩

theorem mem_map_getGlobalRank {t : Topology} {r e e' : ℕ} (hr : r<t.size) (he : e' ∈ t)
    (hl : ∀ b ∈ l, b<t.size) : e' ∈ l.map (rooted t r e).getGlobalRank ↔ (rooted t r e').getMyRank ∈ l := by
  rw [mem_map]
  constructor
  · rintro ⟨b,hb,rfl⟩
    rw [getMyRank_getGlobalRank hr (hl b hb)]
    exact hb
  · intro hb
    exact ⟨_,hb,getGlobalRank_getMyRank hr he⟩

/-- The radix of the schedules of an operation: a reduction to a root and a broadcast use the
power of two tree. -/
def Supported (maxRadix : ℕ) (topology : Topology) (op : CollectiveOperation) : Prop :=
  op = BARRIER_OP ∨ op = ALLREDUCE_OP ∨ getRadix maxRadix topology.size = 2

instance : Decidable (Supported maxRadix topology op) := inferInstanceAs (Decidable (_ ∨ _))

/-- The rank of an endpoint relative to the root of an operation. -/
def rankOf (topology : Topology) (root : ℕ) (op : CollectiveOperation) (e : ℕ) : ℕ :=
  (rooted topology (rootIndex topology root op) e).getMyRank

theorem init_rank (m e : ℕ) :
    (init m topology root op e).map.getMyRank = rankOf topology root op e := by
  rw [init_map,rankOf]

theorem init_partners (hs : Supported maxRadix topology op) (hrt : root ∈ topology) {e : ℕ}
    (he : e ∈ topology) (hpos : 0<topology.size) (p : ℕ) :
    activeSrc (init maxRadix topology root op e) p = (dims maxRadix hpos).sources op (rankOf topology root op e) p ∧
      activeDst (init maxRadix topology root op e) p =
        (dims maxRadix hpos).targets op (rankOf topology root op e) p := by
  have h : Fits (init maxRadix topology root op e) (dims maxRadix hpos) op := init_fits hpos hrt he
  rw [← init_rank maxRadix e]
  have hexc (hop : op=BARRIER_OP ∨ op=ALLREDUCE_OP) :
      activeSrc (init maxRadix topology root op e) p =
          (dims maxRadix hpos).sources op (init maxRadix topology root op e).map.getMyRank p ∧
        activeDst (init maxRadix topology root op e) p =
          (dims maxRadix hpos).targets op (init maxRadix topology root op e).map.getMyRank p := by
    obtain ⟨hsrc,hdst,hout⟩ := h.exchange_partners hop p
    rw [← hsrc,← hdst,activeSrc,activeDst]
    split_ifs with hact
    · exact ⟨rfl,rfl⟩
    · exact ⟨(hout hact).1.symm,(hout hact).2.symm⟩
  rcases hs with rfl | rfl | hr
  · exact hexc (.inl rfl)
  · exact hexc (.inr rfl)
  · cases op with
    | BARRIER_OP => exact hexc (.inl rfl)
    | ALLREDUCE_OP => exact hexc (.inr rfl)
    | REDUCE_OP => exact h.reduce_partners (dims_logradix hpos hr) p
    | BROADCAST_OP => exact h.broadcast_partners (dims_logradix hpos hr) p

theorem rankOf_lt (op : CollectiveOperation) (hrt : root ∈ topology) {e : ℕ}
    (he : e ∈ topology) : rankOf topology root op e < topology.size :=
  getMyRank_lt (rootIndex_lt hrt) he

section

variable {e e' : ℕ} (hrt : root ∈ topology) (he : e ∈ topology) (he' : e' ∈ topology) (p : ℕ)
include hrt he he' p

theorem mem_getDstTopology : e' ∈ (init maxRadix topology root op e).getDstTopology p ↔
      rankOf topology root op e' ∈ (init maxRadix topology root op e).dstRanks p := by
  have hpos : 0<topology.size := Topology.size_pos hrt
  have h : Fits (init maxRadix topology root op e) (dims maxRadix hpos) op := init_fits hpos hrt he
  rw [getDstTopology,init_map,rankOf]
  exact mem_map_getGlobalRank (rootIndex_lt hrt) he'
    (fun b hb => ((h.partnerRanks_spec false p).2 b hb).1)

theorem mem_getSrcTopology : e' ∈ (init maxRadix topology root op e).getSrcTopology p ↔
      rankOf topology root op e' ∈ (init maxRadix topology root op e).srcRanks p := by
  have hpos : 0<topology.size := Topology.size_pos hrt
  have h : Fits (init maxRadix topology root op e) (dims maxRadix hpos) op := init_fits hpos hrt he
  rw [getSrcTopology,init_map,rankOf]
  exact mem_map_getGlobalRank (rootIndex_lt hrt) he'
    (fun b hb => ((h.partnerRanks_spec true p).2 b hb).1)

end

theorem getGlobalRank_nodup {t : Topology} {r e : ℕ} (hr : r<t.size) (hl : l.Nodup)
    (hlt : ∀ b ∈ l, b<t.size) : (l.map (rooted t r e).getGlobalRank).Nodup := by
  apply List.Nodup.map_on _ hl
  intro x hx y hy hxy
  rw [← getMyRank_getGlobalRank (e := e) hr (hlt x hx),hxy,getMyRank_getGlobalRank hr (hlt y hy)]

theorem mem_ite_active {p r : ℕ} : r ∈ (if t.Active p then l else []) ↔ t.Active p ∧ r ∈ l := by
  split_ifs with hact
  · exact ⟨fun hr => ⟨hact,hr⟩,fun hr => hr.2⟩
  · exact ⟨fun hr => absurd hr not_mem_nil,fun hr => absurd hr.1 hact⟩

theorem match_of_active (hs : Supported maxRadix topology op) (hrt : root ∈ topology) {a b : ℕ}
    (ha : a ∈ topology) (hb : b ∈ topology) (p : ℕ) :
    ((init maxRadix topology root op a).Active p ∧
        rankOf topology root op b ∈ (init maxRadix topology root op a).dstRanks p) ↔
      ((init maxRadix topology root op b).Active p ∧
        rankOf topology root op a ∈ (init maxRadix topology root op b).srcRanks p) := by
  have hpos := Topology.size_pos hrt
  have hout := (init_partners hs hrt ha hpos p).2
  have hin := (init_partners hs hrt hb hpos p).1
  have hmat := (dims maxRadix hpos).mem_targets_iff op p (rankOf_lt op hrt ha) (rankOf_lt op hrt hb)
  rw [← hout,← hin,activeDst,activeSrc,mem_ite_active,mem_ite_active] at hmat
  exact hmat

/-- Sends and receives match in the phases that the endpoints execute, and nobody is its own partner, or one twice in a phase.
In a barrier or an allreduce there are no partners in other phases. -/
theorem sends_match_receives (maxRadix : ℕ) (topology : Topology) {root : ℕ}
    (hrt : root ∈ topology) {op : CollectiveOperation} (hs : Supported maxRadix topology op)
    (p : ℕ) {a b : ℕ} (ha : a ∈ topology) (hb : b ∈ topology) :
    (((init maxRadix topology root op a).Active p ∧ b ∈ (init maxRadix topology root op a).getDstTopology p) ↔
      ((init maxRadix topology root op b).Active p ∧ a ∈ (init maxRadix topology root op b).getSrcTopology p)) ∧
    (op = BARRIER_OP ∨ op = ALLREDUCE_OP → b ∈ (init maxRadix topology root op a).getDstTopology p ∨
        b ∈ (init maxRadix topology root op a).getSrcTopology p →
      (init maxRadix topology root op a).Active p) ∧
    a ∉ (init maxRadix topology root op a).getDstTopology p ∧
    a ∉ (init maxRadix topology root op a).getSrcTopology p ∧
    ((init maxRadix topology root op a).getDstTopology p).Nodup ∧
    ((init maxRadix topology root op a).getSrcTopology p).Nodup := by
  have hpos : 0<topology.size := Topology.size_pos hrt
  have h : Fits (init maxRadix topology root op a) (dims maxRadix hpos) op := init_fits hpos hrt ha
  obtain ⟨hdst,hdst'⟩ := h.partnerRanks_spec false p
  obtain ⟨hsrc,hsrc'⟩ := h.partnerRanks_spec true p
  rw [init_rank] at hdst' hsrc'
  rw [mem_getDstTopology hrt ha hb,mem_getSrcTopology hrt hb ha,
    mem_getSrcTopology hrt ha hb,mem_getDstTopology hrt ha ha,
    mem_getSrcTopology hrt ha ha]
  refine ⟨?_,?_,fun hm => (hdst' _ hm).2 rfl,fun hm => (hsrc' _ hm).2 rfl,?_,?_⟩
  · exact match_of_active hs hrt ha hb p
  · intro hop hm
    by_contra hact
    obtain ⟨hno,hno'⟩ := (h.exchange_partners hop p).2.2 hact
    rw [hno,hno'] at hm
    exact hm.elim not_mem_nil not_mem_nil
  · rw [getDstTopology,init_map]
    exact getGlobalRank_nodup (rootIndex_lt hrt) hdst (fun b hb => (hdst' b hb).1)
  · rw [getSrcTopology,init_map]
    exact getGlobalRank_nodup (rootIndex_lt hrt) hsrc (fun b hb => (hsrc' b hb).1)

/-- The topology of the endpoints below a number. -/
def firstEndpoints (n : ℕ) : Topology := ⟨List.range n, nodup_range⟩

theorem sends_match_receives_six :
    ((init 2 (firstEndpoints 6) 4 REDUCE_OP 5).Active 1 ∧
        4 ∈ (init 2 (firstEndpoints 6) 4 REDUCE_OP 5).getDstTopology 1) ↔
      ((init 2 (firstEndpoints 6) 4 REDUCE_OP 4).Active 1 ∧
        5 ∈ (init 2 (firstEndpoints 6) 4 REDUCE_OP 4).getSrcTopology 1) :=
  (sends_match_receives 2 (firstEndpoints 6) (by decide) (by decide) 1 (by decide) (by decide)).1

/-- Outside the phases it executes, a rank of a broadcast lists partners that do not list it. -/
theorem broadcast_unmatched :
    3 ∈ (init 2 (firstEndpoints 4) 0 BROADCAST_OP 2).getDstTopology 1 ∧
      2 ∉ (init 2 (firstEndpoints 4) 0 BROADCAST_OP 3).getSrcTopology 1 ∧
      ¬ (init 2 (firstEndpoints 4) 0 BROADCAST_OP 2).Active 1 := by
  decide

end Endpoints

end PAMI.Schedule
