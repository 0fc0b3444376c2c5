import PAMI.WorkQueue.RingTransfer

namespace PAMI.WorkQueue.RingReduce

open PAMI.Math Function List Nat Option

variable {β : Type*} {C : RingCalls β} {s s' : RingReduce β} {i : ℕ}

/-- At least two participants, and no empty reduce. -/
structure Regular (C : RingCalls β) : Prop where
  two_le : 2 ≤ C.size
  count_pos : ∀ j, 0 < (C.call j).count

/-- What is left of the message of a rank, and what its queues offer. -/
def offers (C : RingCalls β) (s : RingReduce β) (i : ℕ) : List ℕ :=
  [s.bytesLeft i, s.bytesAvailableToProduce C i, s.iproduced i (s.done i) - s.iconsumed i (s.done i),
    s.bytesAvailableToConsume C i]

/-- Ranks that combine do so when the least offer ends with an element. -/
def WholeOffers (C : RingCalls β) (s : RingReduce β) : Event → Prop
  | .advance i => (C.call (s.done i)).root ≠ next C.size i →
    ∀ a ∈ s.offers C i, (∀ b ∈ s.offers C i, a ≤ b) → 2 ^ (C.call (s.done i)).shift ∣ a
  | _ => True

/-- What a rank has put into its queue, and taken from that of the next rank. -/
def out (C : RingCalls β) (s : RingReduce β) (i : ℕ) : ℕ := position C i (s.done i) (s.iconsumed i (s.done i))

def into (C : RingCalls β) (s : RingReduce β) (i : ℕ) : ℕ :=
  position C (next C.size i) (s.done i) (s.iconsumed i (s.done i))

/-- The counters count what is passed on, and the queues hold what was put in and not yet taken. -/
structure Inv (C : RingCalls β) (s : RingReduce β) : Prop where
  posted_le : ∀ i, s.done i ≤ s.posted i
  left : ∀ i < C.size, s.done i < s.posted i →
    0 < s.bytesLeft i ∧ s.bytesLeft i + s.iconsumed i (s.done i) = (C.call (s.done i)).bytes
  fresh : ∀ i j, s.done i < j ∨ s.posted i ≤ j → s.iconsumed i j = 0
  finished : ∀ i < C.size, ∀ j < s.done i, s.iconsumed i j = (C.call j).bytes
  consumed_le : ∀ i j, s.iconsumed i j ≤ s.iproduced i j
  produced_le : ∀ i j, s.iproduced i j ≤ (C.call j).bytes
  whole : ∀ i < C.size, ∀ j, (C.call j).root ≠ next C.size i → 2 ^ (C.call j).shift ∣ s.iconsumed i j
  circular : ∀ i, IsCircular 13 (s.wq i)
  produced : ∀ i < C.size, (s.wq i).producedBytes = BitVec.ofNat 64 (s.out C i)
  consumed : ∀ i < C.size, (s.wq (next C.size i)).consumedBytes = BitVec.ofNat 64 (s.into C i)
  into_le : ∀ i < C.size, s.into C i ≤ s.out C (next C.size i)
  out_le : ∀ i < C.size, s.out C (next C.size i) ≤ s.into C i + 2 ^ 13
  stored : ∀ i < C.size, ∀ j x b, (C.call j).root ≠ next C.size i → (passed C j (next C.size i))[x]? = some b →
    s.into C i ≤ position C (next C.size i) j x → position C (next C.size i) j x < s.out C (next C.size i) →
    s.buffer (next C.size i) (position C (next C.size i) j x % 2 ^ 13) = b
  results : ∀ j, s.rproduced j = s.iconsumed (C.call j).root j
  output : ∀ j x b, x < s.rproduced j → (passed C j (C.call j).root)[x]? = some b → s.output j x = b

theorem isCircular_ringQueue : IsCircular 13 ringQueue := ⟨rfl,rfl,rfl,rfl⟩

theorem out_start (buffer output : ℕ → ℕ → β) (i : ℕ) : (RingReduce.start buffer output).out C i = 0 := position_zero C

theorem into_start (buffer output : ℕ → ℕ → β) (i : ℕ) : (RingReduce.start buffer output).into C i = 0 :=
  position_zero C

theorem Inv.start (buffer output : ℕ → ℕ → β) : Inv C (RingReduce.start buffer output) where
  posted_le _ := le_refl 0
  left _ _ h := absurd h (lt_irrefl 0)
  fresh _ _ _ := rfl
  finished _ _ j h := absurd h (Nat.not_lt_zero j)
  consumed_le _ _ := le_refl 0
  produced_le _ _ := zero_le _
  whole _ _ _ _ := dvd_zero _
  circular _ := isCircular_ringQueue
  produced i _ := congrArg (BitVec.ofNat 64) (out_start buffer output i).symm
  consumed i _ := congrArg (BitVec.ofNat 64) (into_start buffer output i).symm
  into_le _ _ := (into_start buffer output _).trans_le (zero_le _)
  out_le _ _ := (out_start buffer output _).trans_le (zero_le _)
  stored _ _ _ _ _ _ _ _ hlt := absurd (hlt.trans_eq (out_start buffer output _)) (Nat.not_lt_zero _)
  results _ := rfl
  output _ x _ h _ := absurd h (Nat.not_lt_zero x)

namespace Inv

variable (h : Inv C s) (hC : Regular C)

include h in
theorem bytesAvailableToProduce {p : ℕ} (hp : p<C.size) (hnx : next C.size p = i)
    (hrole : (C.call (s.done i)).root≠i) : s.bytesAvailableToProduce C i =
      min (2^13-s.out C i%2^13) (2^13-(s.out C i-s.into C p)) := by
  subst hnx
  have hi := next_lt hp
  rw [RingReduce.bytesAvailableToProduce,if_neg fun hrole' => hrole (role_root.mp hrole'),h.produced _ hi,h.consumed p hp]
  exact (h.circular _).roomToProduce_toNat (h.into_le p hp) (h.out_le p hp)

include h in
theorem bytesAvailableToConsume (hi : i<C.size) : s.bytesAvailableToConsume C i =
    min (2^13-s.into C i%2^13) (s.out C (next C.size i)-s.into C i) := by
  rw [RingReduce.bytesAvailableToConsume,h.produced _ (next_lt hi),h.consumed i hi]
  exact (h.circular _).dataToConsume_toNat (h.into_le i hi) (h.out_le i hi)

include h in
theorem done_le {p : ℕ} (hp : p<C.size) (hnx : next C.size p = i) (hact : s.done i < s.posted i)
    (hrole : (C.call (s.done i)).root≠i) : s.done p ≤ s.done i := by
  subst hnx
  have hi := next_lt hp
  obtain ⟨hpos,hlf⟩ := h.left _ hi hact
  by_contra hlt
  have hx : s.iconsumed (next C.size p) (s.done (next C.size p))<(C.call (s.done (next C.size p))).bytes := by omega
  have hahe := position_lt C (not_le.mp hlt) hx hrole (s.iconsumed p (s.done p))
  exact absurd (h.into_le p hp) (not_le.mpr hahe)

theorem amount_le_left : s.amount C i ≤ s.bytesLeft i := by
  rw [amount]
  split <;> omega

theorem amount_le_produce : s.amount C i ≤ s.bytesAvailableToProduce C i := by
  rw [amount]
  split <;> omega

theorem amount_le_input : s.amount C i ≤ s.iproduced i (s.done i)-s.iconsumed i (s.done i) := by
  rw [amount]
  split <;> omega

theorem amount_le_consume (hrole : role C.size (C.call (s.done i)).root i ≠ .head) :
    s.amount C i ≤ s.bytesAvailableToConsume C i := by
  rw [amount,if_neg hrole]
  exact min_le_right _ _

theorem dvd_amount (hoff : WholeOffers C s (.advance i)) (hsi : 2≤C.size) (hi : i<C.size)
    (hrole : (C.call (s.done i)).root ≠ next C.size i) : 2^(C.call (s.done i)).shift ∣ s.amount C i := by
  have hhe : role C.size (C.call (s.done i)).root i ≠ .head := fun hhe => hrole ((role_head hsi hi).mp hhe)
  have heq : s.amount C i = min (min (min (s.bytesLeft i) (s.bytesAvailableToProduce C i))
      (s.iproduced i (s.done i)-s.iconsumed i (s.done i))) (s.bytesAvailableToConsume C i) := if_neg hhe
  apply hoff hrole
  · simp only [offers,mem_cons,not_mem_nil,or_false]
    omega
  · intro b hb
    simp only [offers,mem_cons,not_mem_nil,or_false] at hb
    omega

include h in
theorem upstream_eq (hi : i<C.size) (hact : s.done i < s.posted i)
    (hrole : (C.call (s.done i)).root ≠ next C.size i) {n : ℕ} (hn : n ≤ s.bytesAvailableToConsume C i)
    (hlf : n ≤ s.bytesLeft i) :
    (List.range n).map (fun x => s.buffer (next C.size i)
      (((s.wq (next C.size i)).position (s.wq (next C.size i)).consumedBytes).toNat+x)) =
      ((passed C (s.done i) (next C.size i)).drop (s.iconsumed i (s.done i))).take n := by
  obtain ⟨-,hbyt⟩ := h.left i hi hact
  have hlen := length_passed C (s.done i) (next_lt hi)
  have hpon : s.into C i = position C (next C.size i) (s.done i) (s.iconsumed i (s.done i)) := rfl
  rw [h.bytesAvailableToConsume hi] at hn
  rw [h.consumed i hi,(h.circular _).position_toNat]
  apply ext_getElem
  · rw [length_map,length_range,length_take,length_drop]
    omega
  · intro x hx hx'
    rw [length_map,length_range] at hx
    rw [getElem_map,getElem_range,getElem_take,getElem_drop,← mod_add_of_lt (by omega)]
    have hnx : s.into C i+x = position C (next C.size i) (s.done i) (s.iconsumed i (s.done i)+x) := by
      rw [hpon,position,position,if_neg hrole,if_neg hrole,add_assoc]
    rw [hnx]
    apply h.stored i hi (s.done i) (s.iconsumed i (s.done i)+x) _ hrole
    · rw [List.getElem?_eq_getElem (by omega)]
    · omega
    · omega

include h hC in
theorem data_eq (hoff : WholeOffers C s (.advance i)) (hi : i<C.size) (hact : s.done i < s.posted i) :
    s.data C i = ((passed C (s.done i) i).drop (s.iconsumed i (s.done i))).take (s.amount C i) := by
  by_cases hrole : (C.call (s.done i)).root=next C.size i
  · have hhe := (role_head hC.two_le hi).mpr hrole
    rw [data]
    dsimp only
    rw [if_pos hhe,passed_head C _ hi hrole.symm]
  · have hhe : role C.size (C.call (s.done i)).root i ≠ .head := fun hhe => hrole ((role_head hC.two_le hi).mp hhe)
    obtain ⟨hpos,hlf⟩ := h.left i hi hact
    have hamo : s.amount C i ≤ s.bytesLeft i := amount_le_left
    obtain ⟨a,ha⟩ := h.whole i hi (s.done i) hrole
    obtain ⟨b,hb⟩ := dvd_amount hoff hC.two_le hi hrole
    have hsi : 0<2^(C.call (s.done i)).shift := Nat.two_pow_pos _
    have hbyt : (C.call (s.done i)).bytes=(C.call (s.done i)).count*2^(C.call (s.done i)).shift := rfl
    have hwho : a+b≤(C.call (s.done i)).count := by
      have hle : (a+b)*2^(C.call (s.done i)).shift≤(C.call (s.done i)).count*2^(C.call (s.done i)).shift := by
        rw [add_mul,mul_comm a,mul_comm b,← ha,← hb,← hbyt]
        omega
      exact Nat.le_of_mul_le_mul_right hle hsi
    have hquo : s.amount C i/2^(C.call (s.done i)).shift=b := by rw [hb,Nat.mul_div_cancel_left b hsi]
    have hups := h.upstream_eq hi hact hrole (amount_le_consume hhe) hamo
    rw [data]
    dsimp only
    rw [if_neg hhe,hups,hquo,passed_next C _ hi (Ne.symm hrole),ha,hb,mul_comm _ a,mul_comm _ b]
    exact blockwise_part (C.keepsBlocks _) (C.input_length _ i hi) (length_passed C _ (next_lt hi)) hwho

end Inv

theorem position_add (q j x m : ℕ) :
    position C q j (x+m) = position C q j x+if (C.call j).root = q then 0 else m := by
  rw [position,position]
  split
  · rfl
  · exact (add_assoc _ _ _).symm

namespace Advanced

variable {m : ℕ} {data : List β} (ha : Advanced C s i m data s')

include ha in
theorem iconsumed_eq (k j : ℕ) :
    s'.iconsumed k j = s.iconsumed k j+if k = i ∧ j = s.done i then m else 0 := by
  rw [ha.iconsumed,update_add]

include ha in
theorem done_of_ne {k : ℕ} (hk : k≠i) : s'.done k = s.done k := by
  cases ha.progress with
  | inl hstay => rw [hstay.1]
  | inr hnew => rw [hnew.1,update_of_ne hk]

variable (h : Inv C s) (hi : i < C.size) (hact : s.done i < s.posted i) (hm : m ≤ s.bytesLeft i)

include ha h hi hact hm in
theorem position_self (q : ℕ) : position C q (s'.done i) (s'.iconsumed i (s'.done i)) =
    position C q (s.done i) (s.iconsumed i (s.done i)+m) := by
  obtain ⟨-,hbyt⟩ := h.left i hi hact
  cases ha.progress with
  | inl hstay => rw [hstay.1,ha.iconsumed_eq,if_pos ⟨rfl,rfl⟩]
  | inr hnew =>
    have hdn : s'.done i = s.done i+1 := by rw [hnew.1,update_self]
    have hall : s.iconsumed i (s.done i)+m=(C.call (s.done i)).bytes := by
      have hzr := hnew.2.1
      omega
    rw [hdn,ha.iconsumed_eq,if_neg (fun hne => absurd hne.2 (Nat.succ_ne_self _)),h.fresh i _ (Or.inl (lt_succ_self _)),
      add_zero,position_zero,hall,position_bytes]

include ha h hi hact hm in
theorem out_eq (q : ℕ) : s'.out C q = s.out C q+put C s i m q := by
  by_cases hq : q=i
  · subst hq
    rw [out,ha.position_self h hi hact hm,position_add,out,put]
    by_cases hrt : (C.call (s.done q)).root=q
    · rw [if_pos hrt,if_neg fun hne => hne.2 hrt]
    · rw [if_neg hrt,if_pos ⟨rfl,hrt⟩]
  · rw [out,out,ha.done_of_ne hq,ha.iconsumed_eq,if_neg fun hne => hq hne.1,put,if_neg fun hne => hq hne.1]
    rfl

include ha h hi hact hm in
theorem into_eq {k : ℕ} (hk : k<C.size) : s'.into C k = s.into C k+taken C s i m (next C.size k) := by
  by_cases hq : k=i
  · subst hq
    rw [into,ha.position_self h hi hact hm,position_add,into,taken]
    by_cases hrt : (C.call (s.done k)).root=next C.size k
    · rw [if_pos hrt,if_neg fun hne => hne.2 hrt]
    · rw [if_neg hrt,if_pos ⟨rfl,hrt⟩]
  · rw [into,into,ha.done_of_ne hq,ha.iconsumed_eq,if_neg fun hne => hq hne.1,taken,
      if_neg fun hne => hq (next_inj hk hi hne.1)]
    rfl

end Advanced

namespace Inv

variable (h : Inv C s) (hC : Regular C) (hi : i < C.size) (hoff : WholeOffers C s (.advance i))

include h in
theorem put_room {p : ℕ} (hp : p<C.size) (q : ℕ) (hq : next C.size p = q) :
    s.out C q%2^13+put C s i (s.amount C i) q ≤ 2^13 ∧
      s.out C q+put C s i (s.amount C i) q ≤ s.into C p+2^13 := by
  have hlt : s.out C q%2^13<2^13 := mod_lt _ (Nat.two_pow_pos 13)
  have hold : s.out C q ≤ s.into C p+2^13 := hq ▸ h.out_le p hp
  rw [put]
  split
  case isTrue hput =>
    obtain ⟨rfl,hrt⟩ := hput
    have hamo := amount_le_produce (C := C) (s := s) (i := q)
    rw [h.bytesAvailableToProduce hp hq hrt] at hamo
    constructor <;> omega
  case isFalse => exact ⟨hlt.le,hold⟩

include h hC in
theorem taken_le {k : ℕ} (hk : k<C.size) : s.into C k+taken C s k (s.amount C k) (next C.size k) ≤ s.out C (next C.size k) := by
  have hold := h.into_le k hk
  rw [taken]
  split
  case isTrue htak =>
    have hrole : role C.size (C.call (s.done k)).root k ≠ .head := by
      intro hrole
      exact htak.2 ((role_head hC.two_le hk).mp hrole)
    have hamo := amount_le_consume hrole
    rw [h.bytesAvailableToConsume hk] at hamo
    omega
  case isFalse => exact hold

include h in
theorem length_data_eq (hda : s.data C i = ((passed C (s.done i) i).drop (s.iconsumed i (s.done i))).take (s.amount C i))
    (hi : i<C.size) (hact : s.done i < s.posted i) : (s.data C i).length = s.amount C i := by
  obtain ⟨-,hbyt⟩ := h.left i hi hact
  have hamo : s.amount C i ≤ s.bytesLeft i := amount_le_left
  rw [hda,length_take,length_drop,length_passed C _ hi]
  omega

include h hC hi hoff in
theorem data_get (hact : s.done i < s.posted i) {x : ℕ} {b : β}
    (hb : (passed C (s.done i) i)[s.iconsumed i (s.done i)+x]? = some b) (hx : x < s.amount C i) :
    (s.data C i)[x]? = some b := by
  rw [h.data_eq hC hoff hi hact,List.getElem?_take,if_pos hx,List.getElem?_drop]
  exact hb

section Step

variable (ha : Advanced C s i (s.amount C i) (s.data C i) s') (hact : s.done i < s.posted i)

include h hC hi hoff ha hact in
theorem stored_advance {k j x : ℕ} {b : β} (hk : k<C.size) (hrt : (C.call j).root ≠ next C.size k)
    (hb : (passed C j (next C.size k))[x]? = some b) (hle : s.into C k ≤ position C (next C.size k) j x)
    (hlt : position C (next C.size k) j x < s.out C (next C.size k)+put C s i (s.amount C i) (next C.size k)) :
    s'.buffer (next C.size k) (position C (next C.size k) j x%2^13) = b := by
  obtain ⟨hend,hrm⟩ := h.put_room (i := i) hk _ rfl
  have hq := next_lt hk
  have hpsm : position C (next C.size k) j x%2^13<2^13 := mod_lt _ (Nat.two_pow_pos 13)
  rw [ha.buffer]
  by_cases hput : next C.size k=i ∧ (C.call (s.done i)).root≠i
  · have hputs : put C s i (s.amount C i) (next C.size k) = s.amount C i := if_pos hput
    obtain ⟨heq,hown⟩ := hput
    rw [heq] at hrt hb hle hlt hend hrm hputs hpsm hq ⊢
    rw [hputs] at hend hlt hrm
    have hpon : producedPosition s i = s.out C i%2^13 := by
      rw [producedPosition,h.produced i hi,(h.circular i).position_toNat]
    rw [if_neg hown,update_self,hpon]
    cases lt_or_ge (position C i j x) (s.out C i) with
    | inl hold =>
      have hlng := h.length_data_eq (h.data_eq hC hoff hi hact) hi hact
      rw [store_of_out]
      · have hsto := h.stored k hk j x b
        rw [heq] at hsto
        exact hsto hrt hb hle hold
      · -- an old byte is not where a new one goes
        by_contra hin
        have hnew := mod_add_of_lt (q := 2^13) (p := s.out C i)
          (i := position C i j x%2^13-s.out C i%2^13) (by omega)
        refine mod_ne_mod (q := 2^13) (i := position C i j x)
          (j := s.out C i+(position C i j x%2^13-s.out C i%2^13)) (by omega) (by omega) ?_
        rw [hnew]
        omega
    | inr hnew =>
      have hxlt : x<(C.call j).bytes := by
        rw [← length_passed C j hi]
        exact (List.getElem?_eq_some_iff.mp hb).1
      obtain ⟨-,hbyt⟩ := h.left i hi hact
      have hamo : s.amount C i ≤ s.bytesLeft i := amount_le_left
      obtain ⟨t,ht⟩ := Nat.exists_eq_add_of_le hnew
      have htlt : t < s.amount C i := by omega
      have hout : s.out C i+t = position C i (s.done i) (s.iconsumed i (s.done i)+t) := by
        rw [position_add,if_neg hown]
        rfl
      obtain ⟨rfl,rfl⟩ := position_inj C hxlt (by omega) hrt hown (ht.trans hout)
      rw [ht,mod_add_of_lt (by omega),store_of_lt (h.data_get hC hi hoff hact hb htlt)]
  · have hzr : put C s i (s.amount C i) (next C.size k)=0 := if_neg hput
    rw [hzr,add_zero] at hlt
    have hsm := h.stored k hk j x b hrt hb hle hlt
    split
    · exact hsm
    case isFalse hown =>
      have hne : next C.size k≠i := fun heq => hput ⟨heq,hown⟩
      rw [update_of_ne hne]
      exact hsm

include h hi ha hact in
theorem left_advance (hC : Regular C) {k : ℕ} (hk : k<C.size) (hnew : s'.done k < s'.posted k) :
    0 < s'.bytesLeft k ∧ s'.bytesLeft k+s'.iconsumed k (s'.done k) = (C.call (s'.done k)).bytes := by
  rw [ha.posted] at hnew
  by_cases heq : k=i
  · subst heq
    obtain ⟨hpos,hbyt⟩ := h.left k hi hact
    have hamo : s.amount C k ≤ s.bytesLeft k := amount_le_left
    cases ha.progress with
    | inl hstay =>
      rw [hstay.1,ha.iconsumed_eq,if_pos ⟨rfl,rfl⟩,hstay.2.1]
      omega
    | inr hdn =>
      have hsc : s'.done k = s.done k+1 := by rw [hdn.1,update_self]
      rw [hsc] at hnew ⊢
      rw [ha.iconsumed_eq,if_neg fun hne => absurd hne.2 (Nat.succ_ne_self _),h.fresh k _ (Or.inl (lt_succ_self _)),
        hdn.2.2 hnew]
      exact ⟨mul_pos (hC.count_pos _) (Nat.two_pow_pos _),rfl⟩
  · rw [ha.done_of_ne heq] at hnew ⊢
    rw [ha.others k heq,ha.iconsumed_eq,if_neg fun hne => heq hne.1]
    exact h.left k hk hnew

include h hi ha hact in
theorem finished_advance {k j : ℕ} (hk : k<C.size) (hj : j < s'.done k) : s'.iconsumed k j = (C.call j).bytes := by
  rw [ha.iconsumed_eq]
  by_cases heq : k=i
  · subst heq
    obtain ⟨-,hbyt⟩ := h.left k hi hact
    have hamo : s.amount C k ≤ s.bytesLeft k := amount_le_left
    cases ha.progress with
    | inl hstay =>
      rw [hstay.1] at hj
      rw [if_neg fun hne => absurd hne.2 hj.ne]
      exact h.finished k hk j hj
    | inr hdn =>
      have hsc : s'.done k = s.done k+1 := by rw [hdn.1,update_self]
      have hzr := hdn.2.1
      cases lt_or_eq_of_le (Nat.lt_succ_iff.mp (hsc ▸ hj)) with
      | inl hlt =>
        rw [if_neg fun hne => absurd hne.2 hlt.ne]
        exact h.finished k hk j hlt
      | inr hla =>
        rw [hla,if_pos ⟨rfl,rfl⟩]
        omega
  · rw [ha.done_of_ne heq] at hj
    rw [if_neg fun hne => heq hne.1]
    exact h.finished k hk j hj

include ha in
theorem done_le_advance (k : ℕ) : s.done k ≤ s'.done k := by
  cases ha.progress with
  | inl hstay => rw [hstay.1]
  | inr hdn =>
    rw [hdn.1]
    by_cases heq : k=i
    · rw [heq,update_self]
      exact le_succ _
    · rw [update_of_ne heq]

include h ha in
theorem results_advance (j : ℕ) : s'.rproduced j = s'.iconsumed (C.call j).root j := by
  rw [ha.rproduced,ha.iconsumed_eq]
  split
  case isTrue hrt =>
    by_cases hj : j=s.done i
    · rw [hj,update_self,if_pos ⟨hrt,rfl⟩,h.results]
    · rw [update_of_ne hj,if_neg fun hne => hj hne.2,h.results,add_zero]
  case isFalse hrt =>
    rw [if_neg,h.results,add_zero]
    rintro ⟨heq,rfl⟩
    exact hrt heq

include h hC hi hoff ha hact in
theorem output_advance {j x : ℕ} {b : β} (hx : x < s'.rproduced j)
    (hb : (passed C j (C.call j).root)[x]? = some b) : s'.output j x = b := by
  rw [ha.rproduced] at hx
  rw [ha.output]
  by_cases hrt : (C.call (s.done i)).root=i
  · rw [if_pos hrt] at hx ⊢
    by_cases hj : j=s.done i
    · subst hj
      rw [update_self] at hx ⊢
      have hres : s.rproduced (s.done i) = s.iconsumed i (s.done i) := by rw [h.results,hrt]
      rw [hrt] at hb
      cases lt_or_ge x (s.rproduced (s.done i)) with
      | inl hlt =>
        rw [store_of_out (Or.inl hlt)]
        exact h.output _ x b hlt (hrt.symm ▸ hb)
      | inr hge =>
        obtain ⟨t,rfl⟩ := Nat.exists_eq_add_of_le hge
        apply store_of_lt
        rw [hres] at hb
        exact h.data_get hC hi hoff hact hb (Nat.lt_of_add_lt_add_left hx)
    · rw [update_of_ne hj] at hx ⊢
      exact h.output j x b hx hb
  · rw [if_neg hrt] at hx ⊢
    exact h.output j x b hx hb

include h hC hi hoff ha hact in
theorem advance_moved : Inv C s' := by
  have hamo : s.amount C i ≤ s.bytesLeft i := amount_le_left
  have hinp : s.amount C i ≤ s.iproduced i (s.done i)-s.iconsumed i (s.done i) := amount_le_input
  have hcns := h.consumed_le i (s.done i)
  have hdn := done_le_advance ha
  have hout := ha.out_eq h hi hact hamo
  have hinto : ∀ k<C.size, _ := fun k hk => ha.into_eq h hi hact hamo hk
  have htak : ∀ k<C.size, s.into C k+taken C s i (s.amount C i) (next C.size k) ≤ s.out C (next C.size k) := by
    intro k hk
    by_cases heq : k=i
    · subst heq
      exact h.taken_le hC hk
    · rw [taken,if_neg fun hne => heq (next_inj hk hi hne.1)]
      exact h.into_le k hk
  exact {
    posted_le := by
      intro k
      rw [ha.posted]
      cases ha.progress with
      | inl hstay =>
        rw [hstay.1]
        exact h.posted_le k
      | inr hnew =>
        rw [hnew.1]
        by_cases heq : k=i
        · rw [heq,update_self]
          exact hact
        · rw [update_of_ne heq]
          exact h.posted_le k
    left := fun k hk hnew => h.left_advance hi ha hact hC hk hnew
    fresh := by
      intro k j hj
      rw [ha.posted] at hj
      have hdon := hdn k
      rw [ha.iconsumed_eq,h.fresh k j (by omega),if_neg]
      rintro ⟨rfl,rfl⟩
      omega
    finished := fun k hk j hj => h.finished_advance hi ha hact hk hj
    consumed_le := by
      intro k j
      have hold := h.consumed_le k j
      rw [ha.iproduced,ha.iconsumed_eq]
      split
      case isTrue heq =>
        obtain ⟨rfl,rfl⟩ := heq
        omega
      case isFalse => exact hold
    produced_le := ha.iproduced.symm ▸ h.produced_le
    whole := by
      intro k hk j hrole
      rw [ha.iconsumed_eq]
      apply Nat.dvd_add (h.whole k hk j hrole)
      split
      case isTrue heq =>
        obtain ⟨rfl,rfl⟩ := heq
        exact dvd_amount hoff hC.two_le hi hrole
      case isFalse => exact Nat.dvd_zero _
    circular := by
      intro q
      rw [ha.wq]
      exact isCircular_moved (h.circular q) _ _
    produced := by
      intro q hq
      rw [ha.wq,hout,BitVec.ofNat_add,← h.produced q hq]
      rfl
    consumed := by
      intro k hk
      rw [ha.wq,hinto k hk,BitVec.ofNat_add,← h.consumed k hk]
      rfl
    into_le := by
      intro k hk
      rw [hinto k hk,hout]
      exact (htak k hk).trans (Nat.le_add_right _ _)
    out_le := by
      intro k hk
      rw [hinto k hk,hout]
      have hrm := (h.put_room (i := i) hk _ rfl).2
      omega
    stored := by
      intro k hk j x b hrt hb hle hlt
      rw [hinto k hk] at hle
      rw [hout] at hlt
      exact h.stored_advance hC hi hoff ha hact hk hrt hb ((Nat.le_add_right _ _).trans hle) hlt
    results := results_advance h ha
    output := fun j x b hx hb => h.output_advance hC hi hoff ha hact hx hb }

end Step

include h hC hi hoff in
theorem advance (hact : s.done i < s.posted i) : Inv C (s.__advanceThread C i) := by
  rw [__advanceThread]
  split
  · exact h
  · exact h.advance_moved hC hi hoff (advanced hC.two_le hi _ _) hact

include h hC in
theorem post (hs : s.step C (.postMulticombine i) = some s') : Inv C s' := by
  rw [RingReduce.step] at hs
  split at hs
  case isFalse => contradiction
  case isTrue hi =>
  obtain rfl := some.inj hs
  have hfre : ∀ k j, s.done k<j ∨ update s.posted i (s.posted i+1) k≤j → s.iconsumed k j=0 := by
    intro k j hj
    apply h.fresh
    by_cases hk : k=i
    · rw [hk,update_self] at hj
      rw [hk]
      omega
    · rwa [update_of_ne hk] at hj
  have hpst : ∀ k, s.done k ≤ update s.posted i (s.posted i+1) k := by
    intro k
    by_cases hk : k=i
    · rw [hk,update_self]
      exact (h.posted_le i).trans (le_succ _)
    · rw [update_of_ne hk]
      exact h.posted_le k
  split
  case isTrue hid =>
    obtain ⟨left,heq,hots,hnew⟩ := setThreads_eq (C := C) (i := i)
      (s := { s with posted := update s.posted i (s.posted i+1) })
    rw [heq]
    refine { h with posted_le := hpst, fresh := hfre, left := ?_ }
    intro k hk hact
    dsimp only at hact hots hnew ⊢
    by_cases hki : k=i
    · subst hki
      rw [hnew hact,h.fresh k _ (Or.inr hid.ge)]
      exact ⟨mul_pos (hC.count_pos _) (Nat.two_pow_pos _),rfl⟩
    · rw [update_of_ne hki] at hact
      rw [hots k hki]
      exact h.left k hk hact
  case isFalse hbusy =>
    refine { h with posted_le := hpst, fresh := hfre, left := ?_ }
    intro k hk hact
    dsimp only at hact
    apply h.left k hk
    by_cases hki : k=i
    · rw [hki]
      exact lt_of_le_of_ne (h.posted_le i) hbusy
    · rwa [update_of_ne hki] at hact

include h in
theorem produceInput {j bytes : ℕ} (hs : s.step C (.produceInput i j bytes) = some s') : Inv C s' := by
  rw [RingReduce.step] at hs
  split at hs
  case isFalse => contradiction
  case isTrue hft =>
  obtain rfl := some.inj hs
  have hcns : ∀ k j', s.iconsumed k j' ≤ update s.iproduced i
      (update (s.iproduced i) j (s.iproduced i j+bytes)) k j' := by
    intro k j'
    rw [update_add]
    exact (h.consumed_le k j').trans (Nat.le_add_right _ _)
  have hpro : ∀ k j', update s.iproduced i
      (update (s.iproduced i) j (s.iproduced i j+bytes)) k j'≤(C.call j').bytes := by
    intro k j'
    rw [update_add]
    split
    case isTrue heq =>
      obtain ⟨rfl,rfl⟩ := heq
      exact hft.2
    case isFalse => exact h.produced_le k j'
  exact { h with consumed_le := hcns, produced_le := hpro }

include h hC in
theorem step {e : Event} (hok : WholeOffers C s e) (hs : s.step C e = some s') : Inv C s' := by
  cases e with
  | postMulticombine i => exact h.post hC hs
  | produceInput i j bytes => exact h.produceInput hs
  | advance i =>
    rw [RingReduce.step] at hs
    split at hs
    case isFalse => contradiction
    case isTrue hact =>
      obtain rfl := some.inj hs
      exact h.advance hC hact.1 hok hact.2

end Inv

theorem run_inv (hC : Regular C) {buffer output : ℕ → ℕ → β}
    (hrun : Run (RingReduce.step C) (WholeOffers C) (RingReduce.start buffer output) s) : Inv C s :=
  hrun.invariant (Inv.start buffer output) fun _ _ _ h hok hs => h.step hC hok hs

end PAMI.WorkQueue.RingReduce
