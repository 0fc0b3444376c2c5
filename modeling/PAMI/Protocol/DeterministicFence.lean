import Mathlib.Data.List.GetD
import PAMI.Math.Diagonal
import PAMI.Math.Runs

namespace PAMI.Protocol

open PAMI.Math List Option

/-- What `DeterministicFence` asks of the mapping and of the packet device: the number of tasks and
the own task, the number of contexts and which tasks can be addressed, the own one among them. -/
structure Fabric where
  size : ℕ
  task : ℕ
  contextCount : ℕ
  isPeer : ℕ → Bool
  task_lt : task < size
  contextCount_pos : 0 < contextCount
  isPeer_task : isPeer task

/-- The state of a fence to all endpoints; beside it, the endpoint fences in the order of their
start, the notices each of them waits for and the calls of the application's `done_fn`. -/
structure FenceAll where
  total : ℕ
  started : ℕ
  completed : ℕ
  taskNext : ℕ
  contextNext : ℕ
  fences : List (ℕ × ℕ)
  active : List ℕ
  done : ℕ
  deriving DecidableEq, Repr

namespace Fabric

variable (F : Fabric)

def next (s : FenceAll) : ℕ × ℕ := ((s.taskNext + F.task) % F.size, s.contextNext % F.contextCount)

/-- Starts an endpoint fence, which waits for the acknowledgement and for the dma. -/
def endpoint (task offset : ℕ) (s : FenceAll) : FenceAll :=
  { s with fences := s.fences ++ [(task, offset)], active := s.active ++ [2] }

/-- One round of the loops of `all` and `fence_done`: a fence to the next endpoint, which counts as
started and completed if it is not addressable. -/
def visit (s : FenceAll) : FenceAll :=
  let endpoint' := F.next s
  let s' := { s with
    started := s.started + 1, taskNext := s.taskNext + 1, contextNext := s.contextNext + 1 }
  if F.isPeer endpoint'.1 then endpoint endpoint'.1 endpoint'.2 s'
  else { s' with completed := s'.completed + 1 }

/-- The loop of `all` until so many fences are started; `none` if that takes more rounds. -/
def start : ℕ → ℕ → FenceAll → Option FenceAll
  | _, 0, s => some s
  | 0, _ + 1, _ => none
  | rounds + 1, count + 1, s =>
    if F.isPeer (F.next s).1 then start rounds count (F.visit s)
    else start rounds (count + 1) (F.visit s)

/-- The state `all` sets up. -/
def initial : FenceAll := ⟨F.size*F.contextCount, 0, 0, 0, 0, [], [], 0⟩

def all : Option FenceAll :=
  let total := F.size*F.contextCount
  let count := if total < 4 then total else 4
  F.start (4*F.size) count F.initial

/-- The end of `fence_done`. -/
def finish (s : FenceAll) : FenceAll :=
  if s.completed = s.total then { s with done := s.done + 1 } else s

/-- The loop of `fence_done`, with the endpoints that are left. -/
def resume : ℕ → FenceAll → FenceAll
  | 0, s => finish s
  | left + 1, s => if F.isPeer (F.next s).1 then F.visit s else resume left (F.visit s)

def fenceDone (s : FenceAll) : FenceAll :=
  let s' := { s with completed := s.completed + 1 }
  F.resume (s'.total - s'.started) s'

/-- `ack_dispatch` or `dma_done` of an endpoint fence; `none` if it waits for nothing more, or if
`fence_done` finds the state of the whole fence freed. -/
def notice (s : FenceAll) (i : ℕ) : Option FenceAll :=
  match s.active[i]? with
  | some (active + 1) =>
    let s' := { s with active := s.active.set i active }
    if active = 0 then if s.done = 0 then some (F.fenceDone s') else none
    else some s'
  | _ => none

/-- The endpoint fences that have not completed. -/
def outstanding (s : FenceAll) : ℕ := s.active.countP (0 < ·)

/-- The endpoint at a position of the walk over all of them. -/
def pair (n : ℕ) : ℕ × ℕ := diagonal F.size F.contextCount F.task n

def PeerAt (n : ℕ) : Prop := F.isPeer ((n + F.task) % F.size)

instance : DecidablePred F.PeerAt := fun _ => inferInstanceAs (Decidable (_ = true))

def peers : ℕ := Nat.count (fun t => F.isPeer t) F.size

/-- The counters agree, and the fences are those of the positions before them. -/
structure Walk (s : FenceAll) : Prop where
  total : s.total = F.size*F.contextCount
  taskNext : s.taskNext = s.started
  contextNext : s.contextNext = s.started
  fences : s.fences = ((List.range s.started).filter F.PeerAt).map F.pair
  completed : s.completed + outstanding s = s.started

structure Inv (s : FenceAll) : Prop extends F.Walk s where
  started_le : s.started ≤ s.total
  started_all : outstanding s = 0 → s.started = s.total
  done : s.done = if outstanding s = 0 then 1 else 0

/-- What a fence to all is for: its endpoint fences go to all addressable endpoints, once each, and `done_fn` is called once,
when all have completed. -/
structure Covers (s : FenceAll) : Prop where
  nodup : s.fences.Nodup
  addressable : ∀ e ∈ s.fences, e.1 < F.size ∧ F.isPeer e.1 ∧ e.2 < F.contextCount
  done_le : s.done ≤ 1
  complete : s.done = 1 → outstanding s = 0 ∧ ∀ t < F.size, F.isPeer t → ∀ c < F.contextCount, (t, c) ∈ s.fences
  enabled : outstanding s = 0 → s.completed = s.total ∧ s.done = 1

section Visit

variable {F} {s : FenceAll}

theorem initial_walk : F.Walk F.initial := by
  constructor <;> rfl

theorem Walk.next_eq (h : F.Walk s) : F.next s = F.pair s.started := by
  rw [next,h.taskNext,h.contextNext]
  rfl

@[simp]
theorem visit_started : (F.visit s).started=s.started+1 := by
  rw [visit]
  split <;> rfl

@[simp]
theorem visit_total : (F.visit s).total=s.total := by
  rw [visit]
  split <;> rfl

@[simp]
theorem visit_done : (F.visit s).done=s.done := by
  rw [visit]
  split <;> rfl

theorem Walk.isPeer_next (h : F.Walk s) : F.isPeer (F.next s).1 = true ↔ F.PeerAt s.started := by
  rw [h.next_eq]
  rfl

theorem Walk.visit_peer (h : F.Walk s) (hp : F.PeerAt s.started) :
    F.visit s = { s with
      started := s.started+1, taskNext := s.taskNext+1, contextNext := s.contextNext+1
      fences := s.fences ++ [F.pair s.started], active := s.active ++ [2] } := by
  rw [visit,if_pos (h.isPeer_next.mpr hp),h.next_eq]
  rfl

theorem Walk.visit_other (h : F.Walk s) (hp : ¬ F.PeerAt s.started) :
    F.visit s = { s with
      started := s.started+1, taskNext := s.taskNext+1, contextNext := s.contextNext+1
      completed := s.completed+1 } := by
  rw [visit,if_neg (mt h.isPeer_next.mp hp)]

theorem Walk.visit_outstanding (h : F.Walk s) :
    outstanding (F.visit s) = outstanding s+if F.PeerAt s.started then 1 else 0 := by
  by_cases hp : F.PeerAt s.started
  · rw [h.visit_peer hp,if_pos hp]
    simp [outstanding]
  · rw [h.visit_other hp,if_neg hp]
    rfl

theorem Walk.visit (h : F.Walk s) : F.Walk (F.visit s) := by
  have hcom := h.completed
  have hout := h.visit_outstanding
  by_cases hp : F.PeerAt s.started
  · rw [if_pos hp] at hout
    rw [h.visit_peer hp] at hout ⊢
    refine ⟨h.total,?_,?_,?_,?_⟩
    · simp [h.taskNext]
    · simp [h.contextNext]
    · simp [range_succ,hp,h.fences]
    · simp only [hout]
      omega
  · rw [if_neg hp] at hout
    rw [h.visit_other hp] at hout ⊢
    refine ⟨h.total,?_,?_,?_,?_⟩
    · simp [h.taskNext]
    · simp [h.contextNext]
    · simp [range_succ,hp,h.fences]
    · simp only [hout]
      omega

end Visit

section Start

variable {F} {s : FenceAll}

theorem start_spec (rounds count : ℕ) (h : F.Walk s)
    (hcou : Nat.count F.PeerAt s.started+count ≤ Nat.count F.PeerAt (s.started+rounds)) :
    ∃ s', F.start rounds count s = some s' ∧ F.Walk s' ∧ s'.done=s.done ∧
      Nat.count F.PeerAt s'.started = Nat.count F.PeerAt s.started+count ∧
      outstanding s' = outstanding s+count ∧
      (0 < count → 0 < s'.started ∧ F.PeerAt (s'.started-1)) := by
  induction rounds generalizing count s with
  | zero =>
    obtain rfl : count=0 := by
      rw [add_zero] at hcou
      omega
    exact ⟨s,by rw [start],h,rfl,rfl,rfl,by omega⟩
  | succ rounds ih =>
    cases count with
    | zero => exact ⟨s,by rw [start],h,rfl,rfl,rfl,by omega⟩
    | succ count =>
      have hrnd : s.started+(rounds+1)=s.started+1+rounds := by omega
      have hsc := Nat.count_succ F.PeerAt s.started
      have hout := h.visit_outstanding
      rw [hrnd] at hcou
      rw [start]
      by_cases hp : F.PeerAt s.started
      · rw [if_pos hp] at hsc hout
        rw [if_pos (h.isPeer_next.mpr hp)]
        obtain ⟨s',hs',hwalk,hdn,hn,ho,hla⟩ := ih count h.visit (by
          rw [visit_started]
          omega)
        rw [visit_started] at hn
        rw [visit_done] at hdn
        refine ⟨s',hs',hwalk,hdn,by omega,by omega,fun _ => ?_⟩
        by_cases hcou' : 0 < count
        · exact hla hcou'
        · -- the fence just started is the last one
          obtain rfl : count=0 := by omega
          rw [start] at hs'
          obtain rfl := some.inj hs'
          rw [visit_started]
          exact ⟨by omega,hp⟩
      · rw [if_neg hp] at hsc hout
        rw [if_neg (mt h.isPeer_next.mp hp)]
        obtain ⟨s',hs',hwalk,hdn,hn,ho,hla⟩ := ih (count+1) h.visit (by
          rw [visit_started]
          omega)
        rw [visit_started] at hn
        rw [visit_done] at hdn
        exact ⟨s',hs',hwalk,hdn,by omega,by omega,hla⟩

theorem count_peerAt (c : ℕ) : Nat.count F.PeerAt (F.size*c) = c*F.peers :=
  count_mod_round (p := fun t => F.isPeer t) F.task c

theorem peers_pos : 0<F.peers := by
  rw [peers,pos_iff_ne_zero,Nat.count_ne_iff_exists]
  exact ⟨F.task,F.task_lt,F.isPeer_task⟩

theorem total_pos : 0<F.size*F.contextCount := mul_pos (Nat.zero_lt_of_lt F.task_lt) F.contextCount_pos

theorem all_spec (F : Fabric) :
    ∃ s, F.all = some s ∧ F.Walk s ∧ s.done=0 ∧ Nat.count F.PeerAt s.started = min 4 (F.size*F.contextCount) ∧
      outstanding s = min 4 (F.size*F.contextCount) ∧
      0 < s.started ∧ F.PeerAt (s.started-1) := by
  have hmin : (if F.size*F.contextCount<4 then F.size*F.contextCount else 4)
      = min 4 (F.size*F.contextCount) := by
    split <;> omega
  have hrnd : min 4 (F.size*F.contextCount) ≤ Nat.count F.PeerAt (F.size*4) := by
    have hpee : 0<F.peers := peers_pos
    rw [count_peerAt]
    omega
  have hpos : 0<F.size*F.contextCount := total_pos
  obtain ⟨s,hs,hwalk,hdn,hn,ho,hla⟩ := start_spec (4*F.size) (min 4 (F.size*F.contextCount)) initial_walk (by
      rw [mul_comm 4]
      simpa [initial] using hrnd)
  have hn' : Nat.count F.PeerAt s.started = min 4 (F.size*F.contextCount) := by simpa [initial] using hn
  have ho' : outstanding s = min 4 (F.size*F.contextCount) := by simpa [initial,outstanding] using ho
  refine ⟨s,?_,hwalk,hdn,hn',ho',hla (by omega)⟩
  rw [all,hmin]
  exact hs

end Start

variable {F : Fabric}

section Notices

variable {s s' : FenceAll} {i left : ℕ} {l : List ℕ}

theorem resume_inv (h : F.Walk s) (hlf : s.started+left=s.total) (hdn : s.done=0) :
    F.Inv (F.resume left s) := by
  induction left generalizing s with
  | zero =>
    have hcom := h.completed
    rw [resume,finish]
    by_cases hs : s.completed=s.total
    · rw [if_pos hs]
      have hout : outstanding s=0 := by omega
      refine ⟨⟨h.total,h.taskNext,h.contextNext,h.fences,hcom⟩,?_,?_,?_⟩
      · show s.started ≤ s.total
        omega
      · intro _
        exact hlf
      · show s.done+1 = if outstanding s=0 then 1 else 0
        rw [if_pos hout,hdn]
    · rw [if_neg hs]
      have hout : outstanding s≠0 := by omega
      refine ⟨h,by omega,fun hs => absurd hs hout,?_⟩
      rw [if_neg hout,hdn]
  | succ left ih =>
    rw [resume]
    by_cases hp : F.PeerAt s.started
    · rw [if_pos (h.isPeer_next.mpr hp)]
      have hout := h.visit_outstanding
      rw [if_pos hp] at hout
      refine ⟨h.visit,?_,by omega,?_⟩
      · rw [visit_started,visit_total]
        omega
      · rw [if_neg (by omega),visit_done,hdn]
    · rw [if_neg (mt h.isPeer_next.mp hp)]
      apply ih h.visit
      · rw [visit_started,visit_total]
        omega
      · rw [visit_done,hdn]

/-- How much is left: the notices awaited, and two for each endpoint without a fence. -/
def work (s : FenceAll) : ℕ := s.active.sum + 2*(s.total - s.started)

theorem resume_work (h : F.Walk s) (hlf : s.started+left=s.total) :
    work (F.resume left s) ≤ work s := by
  induction left generalizing s with
  | zero =>
    rw [resume,finish]
    split <;> rfl
  | succ left ih =>
    rw [resume]
    by_cases hp : F.PeerAt s.started
    · rw [if_pos (h.isPeer_next.mpr hp),h.visit_peer hp,work,work]
      simp only [sum_append,sum_singleton]
      omega
    · rw [if_neg (mt h.isPeer_next.mp hp)]
      have hwr : work (F.visit s) ≤ work s := by
        rw [h.visit_other hp,work,work]
        show s.active.sum+2*(s.total-(s.started+1)) ≤ s.active.sum+2*(s.total-s.started)
        omega
      apply le_trans (ih h.visit _) hwr
      rw [visit_started,visit_total]
      omega

theorem notice_cases (hs : F.notice s i = some s') : ∃ k, s.active[i]? = some (k+1) ∧
      ((0<k ∧ s' = { s with active := s.active.set i k }) ∨
        (k=0 ∧ s.done=0 ∧ s' = F.fenceDone { s with active := s.active.set i 0 })) := by
  rw [notice] at hs
  split at hs
  next k hk =>
    refine ⟨k,hk,?_⟩
    by_cases hzr : k=0
    · rw [if_pos hzr] at hs
      by_cases hdn : s.done=0
      · rw [if_pos hdn,hzr] at hs
        exact .inr ⟨hzr,hdn,(some.inj hs).symm⟩
      · rw [if_neg hdn] at hs
        cases hs
    · rw [if_neg hzr] at hs
      exact .inl ⟨by omega,(some.inj hs).symm⟩
  next => cases hs

theorem countP_set {k : ℕ} (hi : l[i]? = some (k+1)) (k' : ℕ) :
    (l.set i k').countP (0 < ·)+1 = l.countP (0 < ·)+if 0 < k' then 1 else 0 := by
  obtain ⟨hlt,hk⟩ := List.getElem?_eq_some_iff.mp hi
  have hpos : 0<l.countP (0 < ·) := by
    apply countP_pos_iff.mpr
    exact ⟨l[i],getElem_mem hlt,by simp [hk]⟩
  rw [List.countP_set hlt]
  simp only [hk,decide_eq_true_eq,Nat.zero_lt_succ,if_true]
  omega

theorem sum_set (hi : i<l.length) (k : ℕ) : (l.set i k).sum+l[i]=l.sum+k := by
  induction l generalizing i with
  | nil => simp at hi
  | cons a l ih =>
    cases i with
    | zero =>
      simp
      omega
    | succ i =>
      have := ih (Nat.lt_of_succ_lt_succ hi)
      simp
      omega

theorem notice_inv (h : F.Inv s) (hs : F.notice s i = some s') : F.Inv s' ∧ work s' < work s := by
  obtain ⟨k,hk,hcas⟩ := notice_cases hs
  have hsum (k' : ℕ) : (s.active.set i k').sum+(k+1)=s.active.sum+k' := by
    obtain ⟨hlt,hget⟩ := List.getElem?_eq_some_iff.mp hk
    rw [← hget]
    exact sum_set hlt k'
  rcases hcas with ⟨hpos,rfl⟩ | ⟨rfl,hdn,rfl⟩
  · have hout : outstanding { s with active := s.active.set i k } = outstanding s := by
      have hcou := countP_set hk k
      rw [if_pos hpos] at hcou
      show (s.active.set i k).countP (0 < ·) = s.active.countP (0 < ·)
      omega
    have hwr := hsum k
    constructor
    · refine ⟨⟨h.total,h.taskNext,h.contextNext,h.fences,?_⟩,h.started_le,?_,?_⟩
      · rw [hout]
        exact h.completed
      · rw [hout]
        exact h.started_all
      · rw [hout]
        exact h.done
    · show (s.active.set i k).sum+2*(s.total-s.started) < s.active.sum+2*(s.total-s.started)
      omega
  · have hcou := countP_set hk 0
    have hwr := hsum 0
    have hle := h.started_le
    have hcom := h.completed
    have hwalk : F.Walk { s with
        active := s.active.set i 0, completed := s.completed+1 } := by
      refine ⟨h.total,h.taskNext,h.contextNext,h.fences,?_⟩
      show s.completed+1+(s.active.set i 0).countP (0 < ·)=s.started
      rw [outstanding] at hcom
      simp at hcou
      omega
    have hlf : s.started+(s.total-s.started)=s.total := by omega
    constructor
    · exact resume_inv hwalk hlf hdn
    · apply lt_of_le_of_lt (resume_work hwalk hlf)
      show (s.active.set i 0).sum+2*(s.total-s.started) < s.active.sum+2*(s.total-s.started)
      omega

theorem Inv.notice_enabled (h : F.Inv s) (hs : outstanding s ≠ 0) :
    ∃ i s', F.notice s i = some s' := by
  obtain ⟨a,ha,hpos⟩ := countP_pos_iff.mp (pos_of_ne_zero hs)
  obtain ⟨i,hi⟩ := List.getElem?_of_mem ha
  have hdn : s.done=0 := by rw [h.done,if_neg hs]
  cases a with
  | zero => simp at hpos
  | succ k =>
    refine ⟨i,?_⟩
    by_cases hk : k=0
    · simp [notice,hi,hk,hdn]
    · simp [notice,hi,hk]

theorem Inv.run_all (h : F.Inv s) :
    ∃ s', Run F.notice (fun _ _ => True) s s' ∧ F.Inv s' ∧ outstanding s' = 0 := by
  generalize hn : work s=n
  induction n using Nat.strong_induction_on generalizing s with
  | _ n ih =>
    by_cases hs : outstanding s=0
    · exact ⟨s,.refl,h,hs⟩
    · obtain ⟨i,s1,hs1⟩ := h.notice_enabled hs
      obtain ⟨h1,hwr⟩ := notice_inv h hs1
      obtain ⟨s',hrun,h',hout⟩ := ih (work s1) (hn ▸ hwr) h1 rfl
      exact ⟨s',(Run.refl.step trivial hs1).trans hrun,h',hout⟩

end Notices

section Covers

variable {s : FenceAll}

theorem Walk.mem_fences (h : F.Walk s) {e : ℕ × ℕ} :
    e ∈ s.fences ↔ ∃ n < s.started, F.PeerAt n ∧ F.pair n = e := by
  simp [h.fences,and_assoc]

theorem Walk.not_nodup (h : F.Walk s) {n n' : ℕ} (hlt : n<n') (hn' : n' < s.started)
    (hp : F.PeerAt n) (hp' : F.PeerAt n') (heq : F.pair n = F.pair n') : ¬ s.fences.Nodup := by
  intro hnod
  rw [h.fences] at hnod
  have hinj := inj_on_of_nodup_map hnod
  have hmem : n ∈ (List.range s.started).filter F.PeerAt := by
    simp [hp]
    omega
  have hmem' : n' ∈ (List.range s.started).filter F.PeerAt := by
    simp [hp']
    omega
  have := hinj hmem hmem' heq
  omega

theorem Inv.covers (h : F.Inv s) (hco : Nat.Coprime F.size F.contextCount) : F.Covers s := by
  have hle : s.started≤F.size*F.contextCount := by
    rw [← h.total]
    exact h.started_le
  have hout : s.done=1 → outstanding s=0 := by
    intro hdn
    by_contra hne
    rw [h.done,if_neg hne] at hdn
    omega
  have hcom := h.completed
  refine ⟨?_,?_,?_,?_,?_⟩
  · rw [h.fences]
    apply List.Nodup.map_on
    · intro n hn n' hn' heq
      simp only [mem_filter,mem_range] at hn hn'
      exact diagonal_injective hco (by omega) (by omega) heq
    · exact nodup_range.filter _
  · intro e he
    obtain ⟨n,hn,hp,rfl⟩ := h.mem_fences.mp he
    exact ⟨Nat.mod_lt _ (Nat.zero_lt_of_lt F.task_lt),hp,Nat.mod_lt _ F.contextCount_pos⟩
  · rw [h.done]
    split <;> omega
  · intro hdn
    refine ⟨hout hdn,fun t ht hp c hc => ?_⟩
    obtain ⟨n,hn,hpair⟩ := diagonal_surjective F.task hco ht hc
    apply h.mem_fences.mpr
    refine ⟨n,?_,?_,hpair⟩
    · rw [h.started_all (hout hdn),h.total]
      exact hn
    · have hfir : (n+F.task)%F.size=t := congrArg Prod.fst hpair
      rw [PeerAt,hfir]
      exact hp
  · intro hzr
    have hstr := h.started_all hzr
    rw [h.done,if_pos hzr]
    omega

theorem all_started_le (hn : Nat.count F.PeerAt s.started = min 4 (F.size*F.contextCount))
    (hpos : 0 < s.started) (hla : F.PeerAt (s.started-1)) :
    s.started≤F.size*F.contextCount ↔ min 4 (F.size*F.contextCount) ≤ F.peers*F.contextCount := by
  have hrou : Nat.count F.PeerAt (F.size*F.contextCount)=F.contextCount*F.peers := count_peerAt F.contextCount
  rw [mul_comm] at hrou
  rw [← hn]
  have hmul : F.contextCount*F.peers=F.peers*F.contextCount := mul_comm _ _
  constructor
  · intro hle
    have := Nat.count_monotone F.PeerAt hle
    rw [mul_comm] at this
    omega
  · intro hle
    by_contra hlt
    have hmono : Nat.count F.PeerAt (F.contextCount*F.size) ≤ Nat.count F.PeerAt (s.started-1) := by
      apply Nat.count_monotone
      rw [mul_comm]
      omega
    have hsc := Nat.count_succ F.PeerAt (s.started-1)
    rw [if_pos hla,Nat.sub_add_cancel hpos] at hsc
    omega

/-- A fence to all does what it is for exactly if the numbers of tasks and contexts are coprime and
the first loop finds enough endpoints in one round. -/
theorem all_covers_iff (F : Fabric) :
    (∃ s0, F.all = some s0 ∧ ∀ s, Run F.notice (fun _ _ => True) s0 s → F.Covers s) ↔
      Nat.Coprime F.size F.contextCount ∧ min 4 (F.size*F.contextCount) ≤ F.peers*F.contextCount := by
  obtain ⟨s0,hs0,hwalk,hdn,hn,hout,hpos,hla⟩ := all_spec F
  have hle := all_started_le hn hpos hla
  have htot : 0<F.size*F.contextCount := total_pos
  -- after `all` there is a fence to wait for, as the caller is addressable
  have hinv (hstr : s0.started≤F.size*F.contextCount) : F.Inv s0 := by
    have hne : outstanding s0≠0 := by omega
    refine ⟨hwalk,?_,fun h => absurd h hne,?_⟩
    · rw [hwalk.total]
      exact hstr
    · rw [if_neg hne,hdn]
  constructor
  · intro ⟨s,hs,hcov⟩
    obtain rfl := some.inj (hs0.symm.trans hs)
    have hstr : s0.started≤F.size*F.contextCount := by
      by_contra hlt
      -- the last position of the first loop belongs to a second round
      let n := s0.started - 1 - F.size*F.contextCount
      have hn' : n + F.size*F.contextCount = s0.started - 1 := by
        simp only [n]
        omega
      have hpair : F.pair (s0.started - 1) = F.pair n := by
        rw [← hn']
        exact diagonal_add_round n
      have hp : F.PeerAt n := by
        rw [PeerAt,show (n + F.task) % F.size=(F.pair n).1 from rfl,← hpair]
        exact hla
      have hbef : n < s0.started - 1 := by omega
      have hlt : s0.started - 1 < s0.started := by omega
      apply hwalk.not_nodup hbef hlt hp hla hpair.symm
      exact (hcov s0 .refl).nodup
    refine ⟨?_,hle.mp hstr⟩
    by_contra hco
    obtain ⟨s',hrun,hinv',hzr⟩ := (hinv hstr).run_all
    obtain ⟨hlcm,hlt,hrep⟩ := diagonal_repeats F.task
      (Nat.zero_lt_of_lt F.task_lt) F.contextCount_pos hco
    have hall : s'.started=F.size*F.contextCount := by rw [hinv'.started_all hzr,hinv'.total]
    have hp : F.PeerAt 0 := by
      rw [PeerAt,zero_add,Nat.mod_eq_of_lt F.task_lt]
      exact F.isPeer_task
    have hp' : F.PeerAt (Nat.lcm F.size F.contextCount) := by
      have hfir : (Nat.lcm F.size F.contextCount + F.task) % F.size = (0 + F.task) % F.size := congrArg Prod.fst hrep
      rw [PeerAt,hfir]
      exact hp
    apply hinv'.not_nodup hlcm (by omega) hp hp' hrep.symm
    exact (hcov s' hrun).nodup
  · intro ⟨hco,hft⟩
    refine ⟨s0,hs0,fun s hrun => ?_⟩
    have hinv' : F.Inv s := by
      apply hrun.invariant (hinv (hle.mpr hft))
      intro s i s' h _ hs
      exact (notice_inv h hs).1
    exact hinv'.covers hco

/-- Two tasks with two contexts each, all addressable. -/
def square : Fabric where
  size := 2
  task := 0
  contextCount := 2
  isPeer := fun _ => true
  task_lt := by decide
  contextCount_pos := by decide
  isPeer_task := rfl

/-- There `all` starts two fences to each of two endpoints and none to the two others. -/
theorem square_not_covered :
    ∃ s, square.all = some s ∧ s.fences = [(0, 0), (1, 1), (0, 0), (1, 1)] ∧
      Run square.notice (fun _ _ => True) s s ∧ ¬ square.Covers s := by
  refine ⟨_,rfl,rfl,.refl,fun h => ?_⟩
  have hnod := h.nodup
  revert hnod
  decide

end Covers

end Fabric

end PAMI.Protocol
