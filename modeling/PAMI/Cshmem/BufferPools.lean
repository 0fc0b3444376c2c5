import Mathlib.Data.List.Perm.Basic
import PAMI.Cshmem.CollSharedMemoryManager

namespace PAMI.Cshmem

open PAMI.Math Function Manager Params CollShm List Option Nat

namespace Params

variable {P : Params} {k k' : Kind} {i j : ℕ} {a : ℕ}

/-- Buffer `i` of the first chunk. -/
def buffer (P : Params) (k : Kind) (i : ℕ) : ℕ := P.poolStart k + i * P.sizeOf k

/-- The buffers that go round: the first one holds the head of the free list. -/
def buffers (P : Params) (k : Kind) : List ℕ := (List.range (P.cnt k - 1)).map fun i => P.buffer k (i + 1)

def link (P : Params) (a : ℕ) : Option ℕ := if a = P.size then none else some a

theorem link_eq_some {b : ℕ} : P.link a = some b ↔ a=b ∧ a≠P.size := by
  unfold link
  split
  · simp_all
  · simp_all

theorem link_of_ne (h : a≠P.size) : P.link a = some a := if_neg h

@[simp] theorem link_size : P.link P.size = none := if_pos rfl

theorem sizeOf_pos (P : Params) (k : Kind) : 0 < P.sizeOf k := by
  unfold sizeOf cacheBlockSz
  omega

theorem sz_le_sizeOf (P : Params) (k : Kind) : P.sz k ≤ P.sizeOf k := by
  unfold sizeOf cacheBlockSz
  omega

theorem buffer_lt (hi : i < P.cnt k) :
    P.poolStart k ≤ P.buffer k i ∧ P.buffer k i < P.poolStart k+P.cnt k*P.sizeOf k := by
  have hpos := P.sizeOf_pos k
  have hmul : (i+1)*P.sizeOf k ≤ P.cnt k*P.sizeOf k := Nat.mul_le_mul_right _ hi
  rw [succ_mul] at hmul
  unfold buffer
  omega

theorem buffer_inj (hi : i < P.cnt k) (hj : j < P.cnt k') (h : P.buffer k i = P.buffer k' j) :
    k=k' ∧ i=j := by
  obtain ⟨hlow,hhg⟩ := P.buffer_lt hi
  obtain ⟨hlow',hhg'⟩ := P.buffer_lt hj
  have hk : k=k' := by
    cases k <;> cases k' <;> first | rfl | (simp only [poolStart] at *; omega)
  subst hk
  refine ⟨rfl,?_⟩
  have hmul : i*P.sizeOf k = j*P.sizeOf k := by
    unfold buffer at h
    omega
  exact eq_of_mul_eq_mul_right (P.sizeOf_pos k) hmul

theorem mem_buffers : a ∈ P.buffers k ↔ ∃ i, 0 < i ∧ i < P.cnt k ∧ P.buffer k i = a := by
  simp only [buffers,List.mem_map,mem_range]
  constructor
  · rintro ⟨i,hi,rfl⟩
    exact ⟨i+1,by omega,by omega,rfl⟩
  · rintro ⟨i,hpos,hi,rfl⟩
    exact ⟨i-1,by omega,by rw [Nat.sub_add_cancel hpos]⟩

theorem buffers_nodup (P : Params) (k : Kind) : (P.buffers k).Nodup := by
  apply List.Nodup.map_on _ nodup_range
  intro i hi j hj h
  rw [mem_range] at hi hj
  have := (P.buffer_inj (by omega) (by omega) h).2
  omega

@[simp] theorem buffers_length (P : Params) (k : Kind) : (P.buffers k).length = P.cnt k-1 := by
  simp [buffers]

theorem head_not_mem (P : Params) (k : Kind) : P.buffer k 0 ∉ P.buffers k := by
  intro h
  obtain ⟨i,hpos,hi,heq⟩ := mem_buffers.mp h
  have := (P.buffer_inj hi (P.cnt_pos k) heq).2
  omega

def Roomy (P : Params) : Prop := P.poolStart .data + P.cnt .data * P.sizeOf .data ≤ P.size

theorem Roomy.ne_size (h : P.Roomy) (hi : i < P.cnt k) : P.buffer k i ≠ P.size := by
  obtain ⟨-,hlt⟩ := P.buffer_lt hi
  unfold Roomy at h
  cases k <;> simp only [poolStart] at h hlt <;> omega

end Params

namespace CollShm

variable {P : Params} {s : CollShm} {k : Kind} {a v : ℕ}

theorem next_eq (P : Params) (s : CollShm) (a : ℕ) : s.next P a = P.link (s.word a) := rfl

theorem next_store (P : Params) (s : CollShm) (a v : ℕ) :
    (s.store a v).next P = update (s.next P) a (P.link v) := by
  funext b
  by_cases hb : b=a
  · subst hb
    simp [next_eq,store]
  · simp [next_eq,store,hb]

theorem word_store_of_ne {b : ℕ} (h : b≠a) : (s.store a v).word b = s.word b := update_of_ne h _ _

@[simp] theorem word_store_self (s : CollShm) (a v : ℕ) : (s.store a v).word a = v := update_self _ _ _

@[simp] theorem list_store (s : CollShm) (a v : ℕ) : (s.store a v).list=s.list := rfl

@[simp] theorem pool_store (s : CollShm) (a v : ℕ) : (s.store a v).pool=s.pool := rfl

theorem next_congr {s s' : CollShm} {a : ℕ} (h : s'.word a = s.word a) : s'.next P a = s.next P a := by
  rw [next_eq,next_eq,h]

structure Frame (s s' : CollShm) (k : Kind) (l : List ℕ) : Prop where
  list : s'.list = s.list
  pool : s'.pool = s.pool
  word : ∀ a, a ≠ s.list k → a ∉ l → s'.word a = s.word a

theorem getLoop_free {r : ℕ} {F acc : List ℕ} {buffers : ℕ}
    (hfr : Path (s.next P) (s.next P (s.list k)) F) (hr : r≤F.length)
    (hacc : Path (s.next P) (P.link buffers) acc) (hnod : (F ++ acc).Nodup)
    (hli : s.list k ∉ F ++ acc) :
    ∃ b s', s.getLoop P k r buffers = some (b, s') ∧ Frame s s' k (F.take r) ∧
      Path (s'.next P) (s'.next P (s'.list k)) (F.drop r) ∧
      Path (s'.next P) (P.link b) ((F.take r).reverse ++ acc) := by
  induction r generalizing s F acc buffers with
  | zero => exact ⟨buffers,s,rfl,⟨rfl,rfl,fun _ _ _ => rfl⟩,hfr,hacc⟩
  | succ r ih =>
    cases F with
    | nil => simp at hr
    | cons x F =>
      obtain ⟨hx,hF⟩ := hfr
      obtain ⟨hword,hne⟩ := link_eq_some.mp hx
      have hxF : x ∉ F ++ acc := (nodup_cons.mp hnod).1
      have hlx : s.list k≠x := fun heq => hli (by simp [heq])
      have hlF : s.list k ∉ F ++ acc := fun hmem => hli (by simp at hmem ⊢; tauto)
      let s1 := (s.store (s.list k) (s.word x)).store x buffers
      have hnx : s1.next P = update (update (s.next P) (s.list k) (P.link (s.word x))) x
            (P.link buffers) := by
        rw [next_store,next_store]
      have hkeep : ∀ y ∈ F ++ acc, s1.next P y = s.next P y := by
        intro y hy
        have hyx : y≠x := by
          rintro rfl
          exact hxF hy
        have hyl : y≠s.list k := by
          rintro rfl
          exact hlF hy
        rw [hnx,update_of_ne hyx,update_of_ne hyl]
      have hfr1 : Path (s1.next P) (s1.next P (s1.list k)) F := by
        have hhe : s1.next P (s1.list k) = s.next P x := by
          rw [hnx]
          simp [s1,hlx,next_eq]
        rw [hhe]
        exact hF.congr fun y hy => hkeep y (by simp [hy])
      have hacc1 : Path (s1.next P) (P.link x) (x :: acc) := by
        refine ⟨link_of_ne (hword ▸ hne),?_⟩
        rw [hnx,update_self,← hnx]
        exact hacc.congr fun y hy => hkeep y (by simp [hy])
      have hnod1 : (F ++ x :: acc).Nodup := nodup_middle.mpr hnod
      have hli1 : s1.list k ∉ F ++ x :: acc := by
        intro hmem
        apply hli
        simp only [mem_append,mem_cons] at hmem ⊢
        tauto
      obtain ⟨b,s',hget,hfra,hfr',hacc'⟩ := ih hfr1 (by simpa using hr) hacc1 hnod1 hli1
      refine ⟨b,s',?_,⟨hfra.list,hfra.pool,?_⟩,hfr',?_⟩
      · rw [getLoop]
        simp only [fetch,hword,if_neg (hword ▸ hne)]
        exact hget
      · intro a ha hmem
        rw [take_succ_cons,mem_cons,not_or] at hmem
        rw [hfra.word a ha hmem.2]
        exact (word_store_of_ne hmem.1).trans (word_store_of_ne ha)
      · rw [take_succ_cons,reverse_cons,append_assoc]
        exact hacc'

theorem getLoop_exhausted {r : ℕ} (hemp : s.next P (s.list .large) = none) (hft : ¬ s.fits P .large) :
    s.getLoop P .large (r+1) P.size = some (P.size, s) := by
  have hfet : s.fetch .large=P.size := by
    by_contra hne
    have hso : s.next P (s.list .large) = some (s.fetch .large) := link_of_ne hne
    rw [hemp] at hso
    simp at hso
  rw [getLoop,takeChunk,if_neg hft]
  simp [hfet]

theorem lastOf_path {l : List ℕ} {b n : ℕ} (h : Path (s.next P) (s.next P b) l) (hn : l.length<n) :
    s.lastOf P n b = some ((b :: l).getLast (cons_ne_nil b l), l.length) := by
  induction l generalizing b n with
  | nil =>
    cases n with
    | zero => simp at hn
    | succ n =>
      have hnn : s.next P b=none := h
      rw [lastOf,hnn]
      rfl
  | cons x l ih =>
    cases n with
    | zero => simp at hn
    | succ n =>
      obtain ⟨hx,hl⟩ := h
      rw [lastOf,hx]
      simp only [ih hl (by simpa using hn),map_some,length_cons]
      rw [getLast_cons (cons_ne_nil x l)]

theorem push_free {F : List ℕ} {b v : ℕ} (hfr : Path (s.next P) (s.next P (s.list k)) F)
    (hb : b ∉ F) (hli : s.list k ∉ b :: F) (hsi : b≠P.size) (hv : v = s.fetch k) :
    Path (((s.store b v).store (s.list k) b).next P)
      (((s.store b v).store (s.list k) b).next P (s.list k)) (b :: F) := by
  rw [mem_cons,not_or] at hli
  have hnx : ((s.store b v).store (s.list k) b).next P =
      update (update (s.next P) b (s.next P (s.list k))) (s.list k) (some b) := by
    rw [next_store,next_store,link_of_ne hsi,hv]
    rfl
  rw [hnx,update_self]
  apply (hfr.push hb).congr
  intro y hy
  apply update_of_ne
  rintro rfl
  obtain hy | hy := mem_cons.mp hy
  · exact hli.1 hy
  · exact hli.2 hy

theorem pushEach_free {l F : List ℕ} {b : ℕ} (hfr : Path (s.next P) (s.next P (s.list .ctrl)) F)
    (hl : Path (s.next P) (P.link b) l) (hnod : (l ++ F).Nodup) (hli : s.list .ctrl ∉ l ++ F)
    (hsi : P.size ∉ l) :
    Frame s (s.pushEach l.length b) .ctrl l ∧
      Path ((s.pushEach l.length b).next P) ((s.pushEach l.length b).next P (s.list .ctrl))
        (l.reverse ++ F) := by
  induction l generalizing s F b with
  | nil => exact ⟨⟨rfl,rfl,fun _ _ _ => rfl⟩,hfr⟩
  | cons x l ih =>
    obtain ⟨hx,hl⟩ := hl
    obtain ⟨rfl,hne⟩ := link_eq_some.mp hx
    obtain ⟨hbl,hrs⟩ := nodup_cons.mp hnod
    have hbF : b ∉ F := fun hmem => hbl (by simp [hmem])
    have hlis : s.list .ctrl≠b := fun heq => hli (by simp [heq])
    have hlst : s.list .ctrl ∉ l ++ F := fun hmem => hli (by simp at hmem ⊢; tauto)
    let s1 := ((s.store b 0).store b ((s.store b 0).fetch .ctrl)).store (s.list .ctrl) b
    have hfet : (s.store b 0).fetch .ctrl = s.fetch .ctrl := word_store_of_ne hlis
    have hcle : Path ((s.store b 0).next P) ((s.store b 0).next P (s.list .ctrl)) F := by
      have hkeep : ∀ a, a≠b → (s.store b 0).next P a = s.next P a := fun a ha => next_congr (word_store_of_ne ha)
      rw [hkeep _ hlis]
      apply hfr.congr
      intro y hy
      apply hkeep
      rintro rfl
      exact hbF hy
    have hfr1 : Path (s1.next P) (s1.next P (s1.list .ctrl)) (b :: F) :=
      push_free hcle hbF (by simp [hlis]; exact fun h => hlst (by simp [h])) hne rfl
    have hkeep1 : ∀ a, a≠b → a≠s.list .ctrl → s1.word a = s.word a := by
      intro a ha hal
      exact (word_store_of_ne hal).trans ((word_store_of_ne ha).trans (word_store_of_ne ha))
    have hl1 : Path (s1.next P) (P.link (s.word b)) l := by
      apply hl.congr
      intro y hy
      apply next_congr
      apply hkeep1
      · rintro rfl
        exact hbl (by simp [hy])
      · rintro rfl
        exact hlst (by simp [hy])
    obtain ⟨hfra,hpath⟩ := @ih s1 (b :: F) (s.word b) hfr1 hl1 (nodup_middle.mpr hnod)
      (by
        intro hmem
        apply hli
        simp only [s1,list_store,mem_append,mem_cons] at hmem ⊢
        tauto)
      (fun hmem => hsi (by simp [hmem]))
    have heq : s.pushEach (b :: l).length b = s1.pushEach l.length (s.word b) := rfl
    rw [heq]
    refine ⟨⟨hfra.list,hfra.pool,?_⟩,?_⟩
    · intro a ha hmem
      rw [mem_cons,not_or] at hmem
      rw [hfra.word a ha hmem.2,hkeep1 a hmem.1 ha]
    · rw [reverse_cons,append_assoc]
      exact hpath

section Chunk

variable {a n : ℕ}

theorem chain_list (P : Params) (s : CollShm) (k : Kind) (a n : ℕ) :
    (s.chain P k a n).list=s.list ∧ (s.chain P k a n).pool=s.pool := by
  induction n with
  | zero => exact ⟨rfl,rfl⟩
  | succ n ih => exact ih

theorem chain_word_of_ne {b : ℕ} (h : ∀ i<n, b ≠ a+i*P.sizeOf k) :
    (s.chain P k a n).word b = s.word b := by
  induction n with
  | zero => rfl
  | succ n ih => exact (word_store_of_ne (h n (lt_succ_self n))).trans (ih fun i hi => h i (by omega))

theorem chain_word {i : ℕ} (hi : i<n) :
    (s.chain P k a n).word (a+i*P.sizeOf k) = a+(i+1)*P.sizeOf k := by
  induction n with
  | zero => omega
  | succ n ih =>
    obtain rfl | hlt : i=n ∨ i<n := by omega
    · exact word_store_self _ _ _
    · have hne : a+i*P.sizeOf k ≠ a+n*P.sizeOf k := by
        have := Nat.mul_lt_mul_of_pos_right hlt (P.sizeOf_pos k)
        omega
      exact (word_store_of_ne hne).trans (ih hlt)

theorem takeChunk_spec {s' : CollShm} (h : s.takeChunk P k = some (a, s'))
    (hpool : s.pool k = P.poolStart k) :
    a = P.buffer k 0 ∧ s.fits P k ∧ s'.list=s.list ∧
      s'.pool = update s.pool k (P.poolStart k+P.cnt k*P.sizeOf k) ∧
      (∀ i < P.cnt k-1, s'.word (P.buffer k i) = P.buffer k (i+1)) ∧
      s'.word (P.buffer k (P.cnt k-1)) = P.size ∧
      ∀ b, (∀ i < P.cnt k, b ≠ P.buffer k i) → s'.word b = s.word b := by
  have hcnt := P.cnt_pos k
  unfold takeChunk at h
  rw [ite_none_right_eq_some] at h
  obtain ⟨hft,h⟩ := h
  obtain ⟨rfl,rfl⟩ := Prod.mk.inj (some.inj h)
  rw [hpool]
  obtain ⟨hli,hpool'⟩ := chain_list P s k (P.poolStart k) (P.cnt k-1)
  refine ⟨by simp [buffer],hft,hli,?_,?_,?_,?_⟩
  · simp only [pool_store,hpool']
  · intro i hi
    have hne : P.buffer k i ≠ P.buffer k (P.cnt k-1) := by
      intro heq
      have := (P.buffer_inj (by omega) (by omega) heq).2
      omega
    exact (word_store_of_ne hne).trans (chain_word hi)
  · exact word_store_self _ _ _
  · intro b hb
    exact (word_store_of_ne (hb _ (by omega))).trans (chain_word_of_ne fun i hi => hb i (by omega))

end Chunk

end CollShm

/-- One list of free buffers and the lists handed out are all buffers of a pool. -/
structure PoolInv (P : Params) (s : CollShm) (k : Kind) (free : List ℕ) (handed : List (List ℕ)) :
    Prop where
  head : s.list k = P.buffer k 0
  path : Path (s.next P) (s.next P (s.list k)) free
  paths : ∀ l ∈ handed, l ≠ [] ∧ Path (s.next P) l.head? l
  perm : (free ++ handed.flatten).Perm (P.buffers k)

namespace PoolInv

variable {P : Params} {s s' : CollShm} {k k' : Kind} {F : List ℕ} {H : List (List ℕ)}

section

variable (h : PoolInv P s k F H)
include h

theorem nodup : (F ++ H.flatten).Nodup := h.perm.nodup_iff.mpr (P.buffers_nodup k)

theorem mem_buffers {a : ℕ} (ha : a ∈ F ++ H.flatten) : a ∈ P.buffers k := h.perm.mem_iff.mp ha

theorem head_not_mem : s.list k ∉ F ++ H.flatten := by
  intro hmem
  rw [h.head] at hmem
  exact P.head_not_mem k (h.mem_buffers hmem)

theorem length_lt : F.length+H.flatten.length < P.cnt k := by
  have hlen := h.perm.length_eq
  have hpos := P.cnt_pos k
  rw [length_append,buffers_length] at hlen
  omega

theorem ne_size (hroo : P.Roomy) : P.size ∉ F ++ H.flatten := by
  intro hmem
  obtain ⟨i,-,hi,heq⟩ := Params.mem_buffers.mp (h.mem_buffers hmem)
  exact hroo.ne_size hi heq

theorem congr (hli : s'.list k = s.list k)
    (hword : ∀ i < P.cnt k, s'.word (P.buffer k i) = s.word (P.buffer k i)) : PoolInv P s' k F H := by
  have hnx : ∀ a ∈ F ++ H.flatten, s'.next P a = s.next P a := by
    intro a ha
    obtain ⟨i,-,hi,rfl⟩ := Params.mem_buffers.mp (h.mem_buffers ha)
    exact next_congr (hword i hi)
  refine ⟨hli.trans h.head,?_,fun l hl => ⟨(h.paths l hl).1,?_⟩,h.perm⟩
  · have hhe : s'.next P (s'.list k) = s.next P (s.list k) := by
      rw [hli,h.head]
      exact next_congr (hword 0 (P.cnt_pos k))
    rw [hhe]
    exact h.path.congr fun a ha => hnx a (by simp [ha])
  · exact (h.paths l hl).2.congr fun a ha => hnx a (mem_append_right _ (mem_flatten.mpr ⟨l,hl,ha⟩))

theorem frame {G l : List ℕ} {K : List (List ℕ)} (hoth : PoolInv P s k' G K) (hne : k'≠k)
    (hfra : CollShm.Frame s s' k l) (hl : ∀ a ∈ l, a ∈ P.buffers k) : PoolInv P s' k' G K := by
  apply hoth.congr (congrFun hfra.list k')
  intro i hi
  apply hfra.word
  · rw [h.head]
    intro heq
    exact hne (P.buffer_inj hi (P.cnt_pos k) heq).1
  · intro hmem
    obtain ⟨j,-,hj,heq⟩ := Params.mem_buffers.mp (hl _ hmem)
    exact hne (P.buffer_inj hj hi heq).1.symm

theorem keeps {l m : List ℕ} (hfra : CollShm.Frame s s' k l) (hl : ∀ a ∈ l, a ∉ m) (hm : m ∈ H) :
    m ≠ [] ∧ Path (s'.next P) m.head? m := by
  refine ⟨(h.paths m hm).1,(h.paths m hm).2.congr fun a ha => next_congr ?_⟩
  apply hfra.word
  · rintro rfl
    exact h.head_not_mem (mem_append_right _ (mem_flatten.mpr ⟨m,hm,ha⟩))
  · exact fun hal => hl a hal ha

theorem get {n : ℕ} (hpos : 0<n) (hn : n≤F.length) :
    ∃ b s', s.getLoop P k n P.size = some (b, s') ∧ CollShm.Frame s s' k (F.take n) ∧
      b≠P.size ∧ Path (s'.next P) (some b) (F.take n).reverse ∧
      PoolInv P s' k (F.drop n) ((F.take n).reverse :: H) := by
  have hndp : (F ++ []).Nodup := by simpa using h.nodup.of_append_left
  have hnil : Path (s.next P) (P.link P.size) [] := P.link_size
  obtain ⟨b,s',hget,hfra,hpath,hli⟩ := getLoop_free h.path hn hnil hndp
    (fun hmem => h.head_not_mem (mem_append_left _ (by simpa using hmem)))
  rw [append_nil] at hli
  have htake : (F.take n).reverse ≠ [] := by
    intro hnil
    have hlen := congrArg List.length hnil
    rw [length_reverse,length_take,length_nil] at hlen
    omega
  have hb : P.link b = some b := by
    obtain ⟨x,l,hxl⟩ := exists_cons_of_ne_nil htake
    rw [hxl] at hli
    obtain ⟨heq,hne⟩ := link_eq_some.mp hli.1
    exact link_of_ne (heq ▸ hne)
  rw [hb] at hli
  refine ⟨b,s',hget,hfra,(link_eq_some.mp hb).2,hli,?_⟩
  constructor
  · rw [hfra.list,h.head]
  · exact hpath
  · intro l hl
    obtain rfl | hl := mem_cons.mp hl
    · refine ⟨htake,?_⟩
      obtain ⟨x,l,hxl⟩ := exists_cons_of_ne_nil htake
      rw [hxl] at hli ⊢
      exact ⟨rfl,hli.2⟩
    · apply h.keeps hfra _ hl
      intro a ha hal
      exact (nodup_append.mp h.nodup).2.2 a (mem_of_mem_take ha) a (mem_flatten.mpr ⟨l,hl,hal⟩) rfl
  · apply List.Perm.trans _ h.perm
    rw [flatten_cons,← append_assoc]
    apply List.Perm.append_right
    have hspl : (F.drop n ++ F.take n).Perm (F.take n ++ F.drop n) := perm_append_comm
    rw [take_append_drop] at hspl
    exact ((reverse_perm _).append_left _).trans hspl

theorem push (hroo : P.Roomy) {b i : ℕ} (hi : H[i]? = some [b]) :
    CollShm.Frame s ((s.store b (s.fetch k)).store (s.list k) b) k [b] ∧
      PoolInv P ((s.store b (s.fetch k)).store (s.list k) b) k (b :: F) (H.eraseIdx i) := by
  have hmem : [b] ∈ H := mem_of_getElem? hi
  have hperm : (F ++ H.flatten).Perm (b :: F ++ (H.eraseIdx i).flatten) := by
    obtain ⟨hlt,hget⟩ := List.getElem?_eq_some_iff.mp hi
    have hera := (getElem_cons_eraseIdx_perm hlt).flatten
    rw [hget,flatten_cons] at hera
    exact (hera.symm.append_left F).trans perm_middle
  have hbmem : b ∈ F ++ H.flatten := hperm.mem_iff.mpr (by simp)
  have hnod : (b :: F ++ (H.eraseIdx i).flatten).Nodup := hperm.nodup_iff.mp h.nodup
  have hlis : s.list k≠b := fun heq => h.head_not_mem (heq ▸ hbmem)
  have hfra : CollShm.Frame s ((s.store b (s.fetch k)).store (s.list k) b) k [b] := by
    refine ⟨rfl,rfl,fun a ha hab => ?_⟩
    rw [mem_singleton] at hab
    exact (word_store_of_ne ha).trans (word_store_of_ne hab)
  refine ⟨hfra,?_⟩
  constructor
  · exact h.head
  · apply push_free h.path
    · exact fun hbF => (nodup_cons.mp hnod).1 (by simp [hbF])
    · intro hl
      obtain rfl | hl := mem_cons.mp hl
      · exact hlis rfl
      · exact h.head_not_mem (mem_append_left _ hl)
    · rintro rfl
      exact h.ne_size hroo hbmem
    · rfl
  · intro l hl
    apply h.keeps hfra _ (mem_of_mem_eraseIdx hl)
    intro a ha hal
    obtain rfl := mem_singleton.mp ha
    exact (nodup_cons.mp hnod).1 (mem_append_right _ (mem_flatten.mpr ⟨l,hl,hal⟩))
  · exact hperm.symm.trans h.perm

end

theorem pushEach (h : PoolInv P s .ctrl F H) (hroo : P.Roomy) {b i : ℕ} {l : List ℕ}
    (hi : H[i]? = some (b :: l)) :
    CollShm.Frame s (s.pushEach (l.length+1) b) .ctrl (b :: l) ∧
      PoolInv P (s.pushEach (l.length+1) b) .ctrl ((b :: l).reverse ++ F) (H.eraseIdx i) := by
  have hmem : b :: l ∈ H := mem_of_getElem? hi
  have hperm : (F ++ H.flatten).Perm ((b :: l) ++ F ++ (H.eraseIdx i).flatten) := by
    obtain ⟨hlt,hget⟩ := List.getElem?_eq_some_iff.mp hi
    have hera := (getElem_cons_eraseIdx_perm hlt).flatten
    rw [hget,flatten_cons] at hera
    refine (hera.symm.append_left F).trans ?_
    rw [← append_assoc]
    exact perm_append_comm.append_right _
  have hnod : ((b :: l) ++ F ++ (H.eraseIdx i).flatten).Nodup := hperm.nodup_iff.mp h.nodup
  have hin : ∀ a ∈ (b :: l) ++ F, a ∈ F ++ H.flatten := fun a ha => hperm.mem_iff.mpr (mem_append_left _ ha)
  have hb : P.link b = some b := by
    apply link_of_ne
    rintro rfl
    exact h.ne_size hroo (hin _ (by simp))
  have hpath : Path (s.next P) (P.link b) (b :: l) := by
    rw [hb]
    exact (h.paths _ hmem).2
  obtain ⟨hfra,hfr⟩ := pushEach_free h.path hpath hnod.of_append_left
    (fun hl => h.head_not_mem (hin _ hl))
    (fun hl => h.ne_size hroo (hin _ (mem_append_left _ hl)))
  refine ⟨hfra,?_⟩
  constructor
  · exact (congrFun hfra.list _).trans h.head
  · have hli : (s.pushEach (l.length+1) b).list=s.list := hfra.list
    rw [hli]
    exact hfr
  · intro m hm
    apply h.keeps hfra _ (mem_of_mem_eraseIdx hm)
    intro a ha ham
    exact (nodup_append.mp hnod).2.2 a (mem_append_left _ ha) a (mem_flatten.mpr ⟨m,hm,ham⟩) rfl
  · refine List.Perm.trans ?_ (hperm.symm.trans h.perm)
    exact ((reverse_perm _).append_right F).append_right _

end PoolInv

/-- A manager with the lists it has handed out and how many of them came back. -/
structure System where
  m : Manager
  handed : Kind → List (List ℕ)
  returned : Kind → ℕ

/-- A request, or the return of one of the lists handed out. -/
inductive Event where
  | get (k : Kind) (count : ℕ)
  | ret (k : Kind) (i : ℕ)

namespace System

variable (P : Params)

def step (x : System) : Event → Option System
  | .get k n => (x.m.get P k n).map fun r =>
      if r.1 = P.size then { x with m := r.2 }
      else { x with
        m := r.2
        handed := update x.handed k
          (follow (r.2.shm.next P) (P.cnt k) (some r.1) :: x.handed k) }
  | .ret k i => (x.handed k)[i]?.bind fun l => l.head?.bind fun buf => (x.m.ret P k buf).map fun m =>
        { m := m
          handed := update x.handed k ((x.handed k).eraseIdx i)
          returned := update x.returned k (x.returned k + 1) }

def freeList (x : System) (k : Kind) : List ℕ := follow (x.m.shm.next P) (P.cnt k) (x.m.shm.next P (x.m.shm.list k))

def Supplied (x : System) (k : Kind) (count : ℕ) : Prop :=
  0 < count ∧ count ≤ P.cnt k ∧ (count ≤ (x.freeList P k).length ∨
    k = .large ∧ x.freeList P k = [] ∧ ¬ x.m.shm.fits P k)

/-- What is returned of the data buffers and the large ones are lists of one buffer. -/
def Singly (x : System) : Event → Prop
  | .get k n => x.Supplied P k n
  | .ret k i => k = .ctrl ∨ ∀ l, (x.handed k)[i]? = some l → l.length = 1

def Undisturbed (x : System) : Event → Prop
  | .get k n => x.Supplied P k n
  | .ret k _ => k = .ctrl

/-- Each buffer is in one list handed out or in the free list, and each list ends with the null
offset. -/
def Kept (x : System) : Prop := ∀ k, ∃ free, Path (x.m.shm.next P) (x.m.shm.next P (x.m.shm.list k)) free ∧
    (free ++ (x.handed k).flatten).Perm (P.buffers k) ∧
    ∀ l ∈ x.handed k, Path (x.m.shm.next P) l.head? l

/-- A request returns a list of as many buffers, or fails for large buffers and changes nothing; no
assertion stops it, nor the return of a list. -/
def Serves (x : System) : Prop := (∀ k count, x.Supplied P k count → ∃ b m', x.m.get P k count = some (b, m') ∧
    ((∃ l, l.length = count ∧ Path (m'.shm.next P) (some b) l) ∨ k = .large ∧ b = P.size ∧ m' = x.m)) ∧
  ∀ k, ∀ l ∈ x.handed k, ∃ buf, l.head? = some buf ∧ ∃ m', x.m.ret P k buf = some m'

def start (m : Manager) : System := ⟨m, fun _ => [], fun _ => 0⟩

structure Inv (x : System) : Prop where
  roomy : P.Roomy
  pools : ∃ free : Kind → List ℕ, ∀ k, PoolInv P x.m.shm k (free k) (x.handed k)
  ctrl : x.m.inUse .ctrl = (x.handed .ctrl).flatten.length
  counts : ∀ k ≠ .ctrl, x.m.inUse k = (x.handed k).flatten.length + x.returned k

variable {P} {x x' : System} {m : Manager} {k : Kind} {H : List (List ℕ)} {F l : List ℕ} {m' : Manager}
  {s : CollShm}

theorem freeList_eq (h : PoolInv P x.m.shm k F H) : x.freeList P k = F := h.path.follow (by have := h.length_lt; omega)

theorem Inv.update {F' : List ℕ} {H' : List (List ℕ)} {F : Kind → List ℕ}
    (hpoo : ∀ k, PoolInv P x.m.shm k (F k) (x.handed k)) (hfra : CollShm.Frame x.m.shm s k l)
    (hl : ∀ a ∈ l, a ∈ P.buffers k) (hk : PoolInv P s k F' H') :
    ∃ free : Kind → List ℕ, ∀ k', PoolInv P s k' (free k') (Function.update x.handed k H' k') := by
  refine ⟨Function.update F k F',fun k' => ?_⟩
  by_cases hkk : k'=k
  · subst hkk
    simpa using hk
  · rw [update_of_ne hkk,update_of_ne hkk]
    exact (hpoo k).frame (hpoo k') hkk hfra hl

theorem Inv.get (h : Inv P x) {count : ℕ} (hs : x.Supplied P k count) :
    (∃ b m' l, x.m.get P k count = some (b, m') ∧ b≠P.size ∧ l.length=count ∧ Path (m'.shm.next P) (some b) l ∧
      Inv P ⟨m',Function.update x.handed k (l :: x.handed k),x.returned⟩) ∨
    (k = .large ∧ x.m.get P k count = some (P.size, x.m)) := by
  obtain ⟨F,hpoo⟩ := h.pools
  obtain ⟨hpos,hcnt,hn | ⟨rfl,hemp,hft⟩⟩ := hs
  · rw [freeList_eq (hpoo k)] at hn
    obtain ⟨b,s',hget,hfra,hne,hpath,hk⟩ := (hpoo k).get hpos hn
    have hlen : ((F k).take count).reverse.length=count := by rw [length_reverse,length_take,Nat.min_eq_left hn]
    refine Or.inl ⟨b,⟨s',Function.update x.m.inUse k (x.m.inUse k+count)⟩,_,?_,hne,hlen,hpath,?_⟩
    · rw [Manager.get,if_pos hcnt,hget]
      simp [hne]
    · refine ⟨h.roomy,Inv.update hpoo hfra (fun a ha => (hpoo k).mem_buffers
        (mem_append_left _ (mem_of_mem_take ha))) hk,?_,?_⟩
      · by_cases hkk : k = .ctrl
        · subst hkk
          simp only [update_self,h.ctrl,flatten_cons,length_append,hlen]
          omega
        · simp only [update_of_ne (Ne.symm hkk)]
          exact h.ctrl
      · intro k' hk'
        by_cases hkk : k'=k
        · subst hkk
          simp only [update_self,h.counts _ hk',flatten_cons,length_append,hlen]
          omega
        · simp only [update_of_ne hkk]
          exact h.counts k' hk'
  · right
    refine ⟨rfl,?_⟩
    have hnn : x.m.shm.next P (x.m.shm.list .large)=none := by
      have hpath := (hpoo .large).path
      rw [freeList_eq (hpoo .large)] at hemp
      rw [hemp] at hpath
      exact hpath
    obtain ⟨r,rfl⟩ : ∃ r, count=r+1 := ⟨count-1,by omega⟩
    rw [Manager.get,if_pos hcnt,getLoop_exhausted hnn hft]
    simp

theorem Inv.lastOf (h : Inv P x) {buf : ℕ} (hpool : PoolInv P x.m.shm k F (x.handed k))
    (hl : buf :: l ∈ x.handed k) : buf≠P.size ∧ x.m.shm.lastOf P (P.cnt k) buf =
      some ((buf :: l).getLast (cons_ne_nil buf l), l.length) := by
  constructor
  · rintro rfl
    exact hpool.ne_size h.roomy (mem_append_right _ (mem_flatten.mpr ⟨_,hl,mem_cons_self⟩))
  · apply lastOf_path (hpool.paths _ hl).2.2
    have hlt := hpool.length_lt
    have hle : (buf :: l).length≤(x.handed k).flatten.length := (sublist_flatten_of_mem hl).length_le
    rw [length_cons] at hle
    omega

theorem Inv.serves (h : Inv P x) : x.Serves P := by
  constructor
  · intro k count hs
    obtain ⟨b,m',l,hget,-,hlen,hpath,-⟩ | ⟨hk,hget⟩ := h.get hs
    · exact ⟨b,m',hget,Or.inl ⟨l,hlen,hpath⟩⟩
    · exact ⟨P.size,x.m,hget,Or.inr ⟨hk,rfl,rfl⟩⟩
  · intro k l hl
    obtain ⟨F,hpoo⟩ := h.pools
    obtain ⟨buf,l,rfl⟩ := exists_cons_of_ne_nil ((hpoo k).paths l hl).1
    obtain ⟨hne,hla⟩ := h.lastOf (hpoo k) hl
    refine ⟨buf,rfl,?_⟩
    cases k with
    | ctrl => exact ⟨_,by rw [ret,returnCtrlStr,if_neg hne,hla]; rfl⟩
    | large | data => exact ⟨_,by rw [ret,returnBuffer,if_neg hne,hla]; rfl⟩

theorem Inv.kept (h : Inv P x) : x.Kept P := by
  obtain ⟨F,hpoo⟩ := h.pools
  exact fun k => ⟨F k,(hpoo k).path,(hpoo k).perm,fun l hl => ((hpoo k).paths l hl).2⟩

theorem Inv.ret_counts {i : ℕ} (hi : H[i]? = some l) :
    (H.flatten.length : ℤ)=l.length+(H.eraseIdx i).flatten.length := by
  obtain ⟨hlt,hget⟩ := List.getElem?_eq_some_iff.mp hi
  have hlen := (getElem_cons_eraseIdx_perm hlt).flatten.length_eq
  rw [hget,flatten_cons,length_append] at hlen
  omega

theorem Inv.returnBuffer (h : Inv P x) {i buf : ℕ} (hpool : PoolInv P x.m.shm k F (x.handed k))
    (hk : k ≠ .ctrl) (hi : (x.handed k)[i]? = some [buf]) (hret : x.m.ret P k buf = some m') :
    ∃ s, PoolInv P s k (buf :: F) ((x.handed k).eraseIdx i) ∧
      CollShm.Frame x.m.shm s k [buf] ∧ (∀ a ∈ [buf], a ∈ P.buffers k) ∧
      m' = ⟨s,Function.update x.m.inUse k (x.m.inUse k-(0 : ℕ))⟩ := by
  obtain ⟨hfra,hpool'⟩ := hpool.push h.roomy hi
  have hmem : [buf] ∈ x.handed k := mem_of_getElem? hi
  have hbuf : buf ∈ F ++ (x.handed k).flatten := mem_append_right _ (mem_flatten.mpr ⟨_,hmem,by simp⟩)
  obtain ⟨hne,hla⟩ := h.lastOf hpool hmem
  have hret' : x.m.returnBuffer P k buf = some m' := by
    cases k with
    | ctrl => exact absurd rfl hk
    | large | data => exact hret
  rw [Manager.returnBuffer,if_neg hne,hla] at hret'
  refine ⟨_,hpool',hfra,?_,(some.inj hret').symm⟩
  intro a ha
  obtain rfl := mem_singleton.mp ha
  exact hpool.mem_buffers hbuf

theorem Inv.returnCtrlStr (h : Inv P x) {i buf : ℕ} (hpool : PoolInv P x.m.shm .ctrl F (x.handed .ctrl))
    (hi : (x.handed .ctrl)[i]? = some (buf :: l)) (hret : x.m.ret P .ctrl buf = some m') :
    ∃ s, PoolInv P s .ctrl ((buf :: l).reverse ++ F) ((x.handed .ctrl).eraseIdx i) ∧
      CollShm.Frame x.m.shm s .ctrl (buf :: l) ∧ (∀ a ∈ buf :: l, a ∈ P.buffers .ctrl) ∧
      m' = ⟨s,Function.update x.m.inUse .ctrl (x.m.inUse .ctrl-(l.length+1))⟩ := by
  obtain ⟨hfra,hpool'⟩ := hpool.pushEach h.roomy hi
  have hmem : buf :: l ∈ x.handed .ctrl := mem_of_getElem? hi
  have hin : ∀ a ∈ buf :: l, a ∈ F ++ (x.handed .ctrl).flatten := fun a ha =>
    mem_append_right _ (mem_flatten.mpr ⟨_,hmem,ha⟩)
  obtain ⟨hne,hla⟩ := h.lastOf hpool hmem
  have hret' : x.m.returnCtrlStr P buf = some m' := hret
  rw [Manager.returnCtrlStr,if_neg hne,hla] at hret'
  exact ⟨_,hpool',hfra,fun a ha => hpool.mem_buffers (hin a ha),(some.inj hret').symm⟩

theorem step_inv {e : Event} (h : Inv P x) (hok : x.Singly P e) (hs : x.step P e = some x') :
    Inv P x' := by
  cases e with
  | get k count =>
    obtain ⟨⟨b,m'⟩,hget,rfl⟩ := map_eq_some_iff.mp hs
    obtain ⟨b',m'',l,hget',hne,hlen,hpath,hinv⟩ | ⟨-,hget'⟩ := h.get hok
    · obtain ⟨rfl,rfl⟩ := Prod.mk.inj (some.inj (hget.symm.trans hget'))
      have hfol : follow (m'.shm.next P) (P.cnt k) (some b)=l := hpath.follow (hlen ▸ hok.2.1)
      simp only [if_neg hne,hfol]
      exact hinv
    · obtain ⟨rfl,rfl⟩ := Prod.mk.inj (some.inj (hget.symm.trans hget'))
      simpa using h
  | ret k i =>
    obtain ⟨F,hpoo⟩ := h.pools
    obtain ⟨l,hi,hs⟩ := bind_eq_some_iff.mp hs
    obtain ⟨buf,hhe,hs⟩ := bind_eq_some_iff.mp hs
    obtain ⟨m',hret,rfl⟩ := map_eq_some_iff.mp hs
    obtain ⟨l,rfl⟩ : ∃ l', l=buf :: l' := by
      cases l with
      | nil => simp at hhe
      | cons y l =>
        obtain rfl : y=buf := by simpa using hhe
        exact ⟨l,rfl⟩
    by_cases hk : k = .ctrl
    · subst hk
      obtain ⟨s',hpool,hfra,hl,rfl⟩ := h.returnCtrlStr (hpoo .ctrl) hi hret
      refine ⟨h.roomy,Inv.update hpoo hfra hl hpool,?_,?_⟩
      · have := Inv.ret_counts hi
        simp only [update_self,h.ctrl]
        simp only [length_cons] at this ⊢
        omega
      · intro k' hk'
        simp only [update_of_ne hk']
        exact h.counts k' hk'
    · obtain rfl : l = [] := by
        have hlen := (hok.resolve_left hk) _ hi
        simpa using hlen
      obtain ⟨s',hpool,hfra,hl,rfl⟩ := h.returnBuffer (hpoo k) hk hi hret
      refine ⟨h.roomy,Inv.update hpoo hfra hl hpool,?_,?_⟩
      · simp only [update_of_ne (Ne.symm hk)]
        exact h.ctrl
      · intro k' hk'
        by_cases hkk : k'=k
        · subst hkk
          have := Inv.ret_counts hi
          simp only [update_self,h.counts _ hk',length_singleton] at this ⊢
          omega
        · simp only [update_of_ne hkk]
          exact h.counts k' hk'

theorem pool_of_chunk (hroo : P.Roomy) (hli : s.list k = P.buffer k 0)
    (hword : ∀ i < P.cnt k-1, s.word (P.buffer k i) = P.buffer k (i+1))
    (hla : s.word (P.buffer k (P.cnt k-1)) = P.size) : PoolInv P s k (P.buffers k) [] := by
  have hcnt := P.cnt_pos k
  refine ⟨hli,?_,by simp,by simp⟩
  rw [hli]
  apply path_range (fun i => P.buffer k i)
  · intro i hi
    rw [next_eq,hword i hi]
    exact link_of_ne (hroo.ne_size (by omega))
  · rw [next_eq,hla,link_size]

theorem init_spec (h : init P = some m) :
    Inv P (start m) ∧ m.shm.pool .data = P.poolStart .data+P.cnt .data*P.sizeOf .data := by
  obtain ⟨⟨a,s1⟩,hctrl,h⟩ := bind_eq_some_iff.mp h
  obtain ⟨⟨b,s2⟩,hda,h⟩ := bind_eq_some_iff.mp h
  obtain ⟨⟨c,s3⟩,hlar,rfl⟩ := map_eq_some_iff.mp h
  obtain ⟨rfl,-,hli1,hpool1,hword1,hla1,-⟩ := takeChunk_spec hctrl rfl
  simp only at hpool1 hli1
  obtain ⟨rfl,hft,hli2,hpool2,hword2,hla2,hkeep2⟩ := takeChunk_spec hda (by rw [hpool1]; rfl)
  simp only at hpool2 hli2
  obtain ⟨rfl,-,hli3,hpool3,hword3,hla3,hkeep3⟩ := takeChunk_spec hlar (by rw [hpool2,hpool1]; rfl)
  simp only at hli3
  have hroo : P.Roomy := by
    have hft' : s1.pool .data+P.cnt .data*P.sizeOf .data≤P.size := hft
    rwa [hpool1] at hft'
  have hapa (k k' : Kind) (hne : k≠k') {i : ℕ} (hi : i<P.cnt k) :
      ∀ j<P.cnt k', P.buffer k i ≠ P.buffer k' j :=
    fun j hj heq => hne (P.buffer_inj hi hj heq).1
  refine ⟨⟨hroo,⟨P.buffers,fun k => ?_⟩,rfl,fun k _ => rfl⟩,by simp [hpool3,hpool2]⟩
  -- the words of a chunk are those its own step left
  cases k with
  | ctrl =>
    have hsm : ∀ i<P.cnt .ctrl, s3.word (P.buffer .ctrl i) = s1.word (P.buffer .ctrl i) := by
      intro i hi
      rw [hkeep3 _ (hapa .ctrl .large (by decide) hi),hkeep2 _ (hapa .ctrl .data (by decide) hi)]
    have hpos := P.cnt_pos .ctrl
    apply pool_of_chunk hroo
    · simp [start,hli3,hli2]
    · intro i hi
      exact (hsm i (by omega)).trans (hword1 i hi)
    · exact (hsm _ (by omega)).trans hla1
  | data =>
    have hsm : ∀ i<P.cnt .data, s3.word (P.buffer .data i) = s2.word (P.buffer .data i) :=
      fun i hi => hkeep3 _ (hapa .data .large (by decide) hi)
    have hpos := P.cnt_pos .data
    apply pool_of_chunk hroo
    · simp [start,hli3]
    · intro i hi
      exact (hsm i (by omega)).trans (hword2 i hi)
    · exact (hsm _ (by omega)).trans hla2
  | large =>
    apply pool_of_chunk hroo
    · simp [start]
    · exact hword3
    · exact hla3

theorem run_inv {ok : System → Event → Prop} (hok : ∀ x e, ok x e → Singly P x e)
    (hinit : init P = some m) (h : Run (step P) ok (start m) x) : Inv P x :=
  h.invariant (init_spec hinit).1 fun _ _ _ hinv he hs => step_inv hinv (hok _ _ he) hs

theorem Undisturbed.returned (h : Run (step P) (Undisturbed P) (start m) x) :
    ∀ k ≠ .ctrl, x.returned k = 0 := by
  apply h.invariant (fun _ _ => rfl)
  intro x e x' hzr hok hs k hk
  cases e with
  | get k' count =>
    obtain ⟨r,-,rfl⟩ := map_eq_some_iff.mp hs
    rw [← hzr k hk]
    split <;> rfl
  | ret k' i =>
    obtain ⟨l,-,hs⟩ := bind_eq_some_iff.mp hs
    obtain ⟨buf,-,hs⟩ := bind_eq_some_iff.mp hs
    obtain ⟨m',-,rfl⟩ := map_eq_some_iff.mp hs
    obtain rfl : k' = .ctrl := hok
    simp only [update_of_ne hk]
    exact hzr k hk

/-- With requests the free lists can meet, and as long as no data buffer comes back, nothing is lost
and nothing is counted wrong. With data buffers that come back one by one the lists are still right,
but the number in use does not go down. -/
theorem pools_kept (hinit : init P = some m) :
    (∀ x, Run (step P) (Undisturbed P) (start m) x → Kept P x ∧ Serves P x ∧
      ∀ k, x.m.inUse k = (x.handed k).flatten.length) ∧
    (∀ x, Run (step P) (Singly P) (start m) x → Kept P x ∧ Serves P x ∧
      x.m.inUse .ctrl = (x.handed .ctrl).flatten.length ∧
      ∀ k ≠ .ctrl, x.m.inUse k = (x.handed k).flatten.length + x.returned k) := by
  constructor
  · intro x hrun
    have hinv : Inv P x := run_inv (fun x e he => by
      cases e with
      | get k count => exact he
      | ret k i => exact Or.inl he) hinit hrun
    refine ⟨hinv.kept,hinv.serves,fun k => ?_⟩
    by_cases hk : k = .ctrl
    · rw [hk]
      exact hinv.ctrl
    · rw [hinv.counts k hk,Undisturbed.returned hrun k hk]
      simp
  · intro x hrun
    have hinv : Inv P x := run_inv (fun _ _ he => he) hinit hrun
    exact ⟨hinv.kept,hinv.serves,hinv.ctrl,hinv.counts⟩

/-- Three buffers in each pool, of one cache block each. -/
def three : Params := ⟨fun _ => 3, fun _ => 128, fun _ => zero_lt_succ 2⟩

def threeManager : Manager := (init three).getD ⟨⟨fun _ => 0, fun _ => 0, fun _ => 0⟩, fun _ => 0⟩

theorem init_three : init three = some threeManager := by
  have hso : (init three).isSome=true := by decide
  obtain ⟨m,hm⟩ := isSome_iff_exists.mp hso
  rw [threeManager,hm,getD_some]

instance (x : System) (k : Kind) (count : ℕ) : Decidable (x.Supplied P k count) :=
  inferInstanceAs (Decidable (_ ∧ _ ∧ (_ ∨ _ ∧ _ ∧ ¬ _)))

instance (x : System) (e : Event) : Decidable (x.Undisturbed P e) :=
  match e with
  | .get k n => inferInstanceAs (Decidable (x.Supplied P k n))
  | .ret k _ => inferInstanceAs (Decidable (k = .ctrl))

theorem pools_kept_three : ∃ x, execEvents (fun x e => if x.Undisturbed three e then x.step three e else none)
      [.get .ctrl 2, .ret .ctrl 0, .get .data 1, .get .data 1] (start threeManager) = some x ∧
    Kept three x ∧ Serves three x ∧ ∀ k, x.m.inUse k = (x.handed k).flatten.length := by
  have hso : (execEvents (fun x e => if x.Undisturbed three e then x.step three e else none)
      [.get .ctrl 2,.ret .ctrl 0,.get .data 1,.get .data 1] (start threeManager)).isSome=true := by
    decide
  obtain ⟨x,hx⟩ := isSome_iff_exists.mp hso
  exact ⟨x,hx,(pools_kept init_three).1 x (Run.refl.checked _ hx)⟩

/-- Two data buffers are handed out and come back: only the second one is on the free list then, and
one of them is still counted. -/
theorem dataBuffer_lost : ∃ x, execEvents (step three) [.get .data 2, .ret .data 0] (start threeManager) = some x ∧
    ¬ Kept three x ∧ x.m.inUse .data ≠ (x.handed .data).flatten.length := by
  have hrun : (execEvents (step three) [.get .data 2,.ret .data 0] (start threeManager)).map
      (fun x => (x.freeList three .data, x.handed .data, x.m.inUse .data)) =
      some ([1024], [], 1) := by decide
  obtain ⟨x,hx,hstt⟩ := map_eq_some_iff.mp hrun
  obtain ⟨hfr,hhan,huse⟩ : x.freeList three .data = [1024] ∧ x.handed .data = [] ∧
      x.m.inUse .data=1 := by simpa using hstt
  refine ⟨x,hx,fun hkp => ?_,?_⟩
  · obtain ⟨free,hpath,hperm,-⟩ := hkp .data
    have hlen := hperm.length_eq
    rw [hhan,flatten_nil,append_nil,buffers_length] at hlen
    have hfol : x.freeList three .data=free := hpath.follow (by rw [hlen]; decide)
    rw [← hfol,hfr] at hlen
    exact absurd hlen (by decide)
  · rw [hhan,huse]
    decide

end System

end PAMI.Cshmem
