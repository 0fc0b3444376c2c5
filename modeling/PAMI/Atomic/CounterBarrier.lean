import Mathlib.Algebra.BigOperators.Fin
import Mathlib.Algebra.Order.BigOperators.Group.Finset
import PAMI.Math.Runs

namespace PAMI.Atomic

open PAMI.Math Function Finset

/-- The next counter operation of a participant: the fetch and the increment of `begin`, then those of `poll`, of which
`flipping` and the two clears are the master's. -/
inductive Pc
  | idle
  | entering (phase : ℕ)
  | polling
  | arriving
  | spinning
  | flipping
  | clearingStat
  | clearingLock
  | leaving
  deriving DecidableEq

/-- A participant's own data, and how many barriers it has begun and completed. -/
structure Participant where
  pc : Pc
  data : ℕ
  active : Bool
  begun : ℕ
  completed : ℕ

/-- The counters of an `IndirectCounter` barrier, and its participants; for each round, how often an increment made its
lock twice the number of participants. -/
structure CounterBarrier (ι : Type*) where
  control : ℕ
  lock : ℕ → ℕ
  stat : ℕ → ℕ
  part : ι → Participant
  reached : ℕ → ℕ

namespace CounterBarrier

variable {ι : Type*} [Fintype ι] [DecidableEq ι]

def new : CounterBarrier ι where
  control := 0
  lock := fun _ => 0
  stat := fun _ => 0
  part := fun _ => ⟨.idle, 0, false, 0, 0⟩
  reached := fun _ => 0

variable (master : ι) (s : CounterBarrier ι)

def setPart (i : ι) (p : Participant) : CounterBarrier ι := { s with part := update s.part i p }

/-- `_lock[phase].fetch_and_inc()`, by a participant of a round. -/
def fetchAndInc (phase round : ℕ) : CounterBarrier ι :=
  { s with
    lock := update s.lock phase (s.lock phase + 1)
    reached := update s.reached round
      (s.reached round + if s.lock phase + 1 = 2 * Fintype.card ι then 1 else 0) }

/-- The end of `poll`, which returns false. -/
def complete (i : ι) (p : Participant) : CounterBarrier ι :=
  s.setPart i { p with pc := .idle, active := false, completed := p.completed + 1 }

/-- The next counter operation of a participant that enters the barrier again and again. -/
def step (i : ι) : Option (CounterBarrier ι) :=
  let p := s.part i
  match p.pc with
  | .idle => some (s.setPart i { p with pc := .entering s.control })
  | .entering phase =>
    some ((s.fetchAndInc phase p.begun).setPart i
      { p with pc := .polling, data := phase, active := true, begun := p.begun + 1 })
  | .polling =>
    if s.lock p.data < Fintype.card ι then some s
    else some (s.setPart i { p with pc := .arriving })
  | .arriving => some ((s.fetchAndInc p.data (p.begun - 1)).setPart i { p with pc := .spinning })
  | .spinning =>
    if 0 < s.lock p.data ∧ s.lock p.data < 2 * Fintype.card ι then some s
    else some (s.setPart i { p with pc := if i = master then .flipping else .leaving })
  | .flipping =>
    some ({ s with control := if p.data ≠ 0 then s.control - 1 else s.control + 1 }.setPart i
      { p with pc := .clearingStat })
  | .clearingStat => some ({ s with stat := update s.stat p.data 0 }.setPart i { p with pc := .clearingLock })
  | .clearingLock => some ({ s with lock := update s.lock p.data 0 }.complete i p)
  | .leaving => if 0 < s.lock p.data then some s else some (s.complete i p)

/-- A participant whose next operation leaves it in its loop. -/
def Waiting (i : ι) : Prop :=
  match (s.part i).pc with
  | .polling => s.lock (s.part i).data < Fintype.card ι
  | .spinning => 0 < s.lock (s.part i).data ∧ s.lock (s.part i).data < 2 * Fintype.card ι
  | .leaving => 0 < s.lock (s.part i).data
  | _ => False

end CounterBarrier

namespace Pc

/-- How often a participant has incremented the lock of its round. -/
def incs : Pc → ℕ
  | .idle | .entering _ => 0
  | .polling | .arriving => 1
  | _ => 2

def Passed : Pc → Prop
  | .idle | .entering _ | .polling => False
  | _ => True

def Released : Pc → Prop
  | .flipping | .clearingStat | .clearingLock | .leaving => True
  | _ => False

/-- Between the increment of `begin` and the end of `poll`; only the master releases the lock, and only the others wait
for that. -/
def Inside (isMaster : Prop) : Pc → Prop
  | .idle | .entering _ => False
  | .polling | .arriving | .spinning => True
  | .flipping | .clearingStat | .clearingLock => isMaster
  | .leaving => ¬ isMaster

def Flipped : Pc → Prop
  | .clearingStat | .clearingLock => True
  | _ => False

theorem passed_of_incs {pc : Pc} (h : 1<pc.incs) : pc.Passed := by
  cases pc <;> trivial

instance : DecidablePred Flipped := fun pc => by
  cases pc <;> unfold Flipped <;> infer_instance

theorem Flipped.released {pc : Pc} (h : pc.Flipped) : pc.Released := by
  cases pc <;> first | exact h | trivial

theorem Flipped.ne_before {pc : Pc} (h : pc.Flipped) (phase : ℕ) : ¬ (pc = .idle ∨ pc = .entering phase) := by
  intro hpc
  cases hpc with
  | inl hpc | inr hpc => exact absurd h (by rw [hpc]; exact id)

end Pc

/-- Where a participant is while the master is in its round `r`: still leaving the round before, not yet in this one, or
in it. -/
inductive Position (isMaster : Prop) (r : ℕ) (p : Participant) : Prop
  | late (hi : ¬ isMaster) (hpc : p.pc = .spinning ∨ p.pc = .leaving) (hda : p.data = (r + 1) % 2)
      (hact : p.active = true) (hb : p.begun = r) (hc : p.completed + 1 = r)
  | before (hpc : p.pc = .idle ∨ p.pc = .entering (r % 2)) (hb : p.begun = r) (hc : p.completed = r)
  | inside (hpc : p.pc.Inside isMaster) (hda : p.data = r % 2) (hact : p.active = true) (hb : p.begun = r + 1)
      (hc : p.completed = r)

/-- The increments of a participant in a round. -/
def incs (r : ℕ) (p : Participant) : ℕ := if p.begun = r + 1 then p.pc.incs else 0

namespace CounterBarrier

variable {ι : Type*} [Fintype ι] {master : ι} {s : CounterBarrier ι}

/-- The counters and the participants in the master's round. -/
structure Inv (master : ι) (r : ℕ) (s : CounterBarrier ι) : Prop where
  completed : (s.part master).completed = r
  control : s.control = if (s.part master).pc.Flipped then (r + 1) % 2 else r % 2
  position : ∀ i, Position (i = master) r (s.part i)
  lock : s.lock (r % 2) = ∑ i, incs r (s.part i)
  other : s.lock ((r + 1) % 2) = 0
  begun : ∀ i, (s.part i).begun = r + 1 → (s.part i).pc.Passed → ∀ j, (s.part j).begun = r + 1
  arrived : ∀ i, (s.part i).begun = r + 1 → (s.part i).pc.Released → ∀ j, incs r (s.part j) = 2
  reached : ∀ k, s.reached k = if k < r then 1 else if k = r ∧ s.lock (r % 2) = 2 * Fintype.card ι then 1 else 0

section Counting

variable {r : ℕ} {f : ι → ℕ}

theorem incs_le (p : Participant) : incs r p ≤ 2 := by
  rw [incs]
  split
  · cases p.pc <;> simp [Pc.incs]
  · exact Nat.zero_le 2

theorem eq_of_le_sum {n : ℕ} (hf : ∀ i, f i ≤ n) (h : n*Fintype.card ι ≤ ∑ i, f i) (i : ι) : f i = n := by
  by_contra hne
  have hlt : ∑ i, f i < ∑ _i : ι, n := sum_lt_sum (fun i _ => hf i) ⟨i,mem_univ i,lt_of_le_of_ne (hf i) hne⟩
  rw [sum_const,Finset.card_univ,smul_eq_mul,mul_comm] at hlt
  omega

theorem lt_of_sum {n : ℕ} (hf : ∀ i, f i ≤ n) {i : ι} (hi : f i < n) : ∑ i, f i < n*Fintype.card ι := by
  by_contra hle
  exact hi.ne (eq_of_le_sum hf (not_lt.mp hle) i)

theorem sum_incs_update [DecidableEq ι] (part : ι → Participant) (i : ι) (p : Participant) :
    ∑ j, incs r (update part i p j)+incs r (part i) = ∑ j, incs r (part j)+incs r p := by
  rw [← add_sum_erase _ _ (mem_univ i),← add_sum_erase _ (fun j => incs r (part j)) (mem_univ i),update_self]
  have hrs : ∑ j ∈ Finset.univ.erase i, incs r (update part i p j) = ∑ j ∈ Finset.univ.erase i, incs r (part j) :=
    sum_congr rfl fun j hj => by rw [update_of_ne (ne_of_mem_erase hj)]
  rw [hrs]
  omega

end Counting

theorem card_pos (master : ι) : 0 < Fintype.card ι := Fintype.card_pos_iff.mpr ⟨master⟩

theorem new_inv (master : ι) : Inv master 0 (new : CounterBarrier ι) where
  completed := rfl
  control := rfl
  position i := .before (.inl rfl) rfl rfl
  lock := by
    apply Eq.symm
    apply sum_eq_zero
    intro i _
    rfl
  other := rfl
  begun i h := absurd h (zero_ne_one)
  arrived i h := absurd h (zero_ne_one)
  reached k := by
    have := card_pos master
    rw [if_neg (Nat.not_lt_zero k),if_neg]
    · rfl
    · intro h
      have h : 0=2*Fintype.card ι := h.2
      omega

namespace Inv

variable {r : ℕ} {i : ι} {phase : ℕ} {q : Participant}

section

variable (h : Inv master r s)
include h

theorem lock_pos (hi : 0 < incs r (s.part i)) : 0 < s.lock (r%2) := by
  rw [h.lock]
  exact hi.trans_le (single_le_sum (f := fun j => incs r (s.part j)) (fun j _ => Nat.zero_le _) (mem_univ i))

theorem lock_lt (hi : incs r (s.part i) < 2) : s.lock (r%2) < 2*Fintype.card ι := by
  rw [h.lock]
  exact lt_of_sum (fun j => incs_le (s.part j)) hi

omit [Fintype ι] h in
theorem begun_of_incs (hi : 0 < incs r (s.part i)) : (s.part i).begun=r+1 := by
  by_contra hne
  rw [incs,if_neg hne] at hi
  exact absurd hi (lt_irrefl 0)

theorem inside (hi : (s.part i).begun=r+1) :
    (s.part i).pc.Inside (i=master) ∧ (s.part i).data=r%2 ∧ (s.part i).active=true ∧
      (s.part i).completed=r := by
  cases h.position i with
  | late _ _ _ _ hb | before _ hb => omega
  | inside hpc hda hact _ hc => exact ⟨hpc,hda,hact,hc⟩

theorem begun_le (i : ι) : r≤(s.part i).begun ∧ (s.part i).begun ≤ r+1 := by
  cases h.position i with
  | late _ _ _ _ hb | before _ hb | inside _ _ _ hb => omega

theorem completed_le (i : ι) : (s.part i).completed ≤ r := by
  cases h.position i with
  | late _ _ _ _ _ hc | before _ _ hc | inside _ _ _ _ hc => omega

theorem control_of_incs (hi : incs r (s.part i) < 2) : ¬ (s.part master).pc.Flipped ∧ s.control=r%2 := by
  have hn : ¬ (s.part master).pc.Flipped := by
    intro hf
    have hb : (s.part master).begun=r+1 := by
      cases h.position master with
      | late hm => exact absurd rfl hm
      | before hpc => exact absurd hpc (hf.ne_before _)
      | inside _ _ _ hb => exact hb
    have := h.arrived master hb hf.released i
    omega
  refine ⟨hn,?_⟩
  rw [h.control,if_neg hn]

theorem reached_of_incs (hi : incs r (s.part i) < 2) : s.reached r = 0 := by
  have hlt := h.lock_lt hi
  rw [h.reached,if_neg (lt_irrefl r),if_neg]
  intro hl
  omega

theorem all_begun (hl : Fintype.card ι ≤ s.lock (r%2)) (j : ι) : (s.part j).begun=r+1 := by
  by_cases hp : ∃ i, (s.part i).begun=r+1 ∧ (s.part i).pc.Passed
  · obtain ⟨i,hb,hi⟩ := hp
    exact h.begun i hb hi j
  · have hle : ∀ i, incs r (s.part i)≤1 := by
      intro i
      by_contra hi
      rw [incs] at hi
      split at hi
      · rename_i hb
        exact hp ⟨i,hb,Pc.passed_of_incs (not_le.mp hi)⟩
      · exact hi (Nat.zero_le 1)
    have hj : incs r (s.part j)=1 := by
      apply eq_of_le_sum hle
      rw [← h.lock,Nat.one_mul]
      exact hl
    exact begun_of_incs (by omega)

theorem all_arrived (hl : 2*Fintype.card ι ≤ s.lock (r%2)) (j : ι) : incs r (s.part j) = 2 := by
  apply eq_of_le_sum (fun i => incs_le (s.part i))
  rw [← h.lock]
  exact hl

omit [Fintype ι] h in
theorem incs_eq (hb : (s.part i).begun=r+1) : incs r (s.part i) = (s.part i).pc.incs := if_pos hb

theorem late (hall : ∀ j, incs r (s.part j) = 2) {j : ι} (hj : j≠master) :
    Position (j=master) (r+1) (s.part j) := by
  have hb : (s.part j).begun=r+1 := begun_of_incs (by rw [hall j]; exact Nat.zero_lt_two)
  have hi := hall j
  rw [incs_eq hb] at hi
  obtain ⟨hin,hda,hact,hc⟩ := h.inside hb
  refine .late hj ?_ (by omega) hact hb (by omega)
  cases hpc : (s.part j).pc <;> rw [hpc] at hin hi <;>
    first | exact .inl rfl | exact .inr rfl | exact absurd hin hj | exact absurd hin id | exact absurd hi (by decide)

theorem waiting_begun (hw : Waiting s i) : (s.part i).begun=r+1 ∧
      ((s.part i).pc = .polling ∨ (s.part i).pc = .spinning ∨ (s.part i).pc = .leaving) := by
  cases h.position i with
  | late _ hpc hda =>
    have h0 : s.lock (s.part i).data=0 := hda ▸ h.other
    cases hpc with
    | inl hpc | inr hpc => simp [Waiting,hpc,h0] at hw
  | before hpc =>
    cases hpc with
    | inl hpc | inr hpc => simp [Waiting,hpc] at hw
  | inside _ _ _ hb =>
    refine ⟨hb,?_⟩
    cases hpc : (s.part i).pc <;> simp [Waiting,hpc] at hw <;> simp

theorem lock_le {n : ℕ} (hn : ∀ j, n ≤ incs r (s.part j)) : n*Fintype.card ι ≤ s.lock (r%2) := by
  have := card_nsmul_le_sum Finset.univ (fun j => incs r (s.part j)) n fun j _ => hn j
  rw [smul_eq_mul,Finset.card_univ,mul_comm] at this
  rw [h.lock]
  exact this

theorem not_all_waiting : ¬ ∀ i, Waiting s i := by
  intro hw
  have hda : ∀ j, (s.part j).data=r%2 := fun j => (h.inside (h.waiting_begun (hw j)).1).2.1
  have hone : ∀ j, 1 ≤ incs r (s.part j) := by
    intro j
    obtain ⟨hb,hpc⟩ := h.waiting_begun (hw j)
    rw [incs_eq hb]
    obtain hpc | hpc | hpc := hpc <;> rw [hpc] <;> decide
  have hcard := h.lock_le hone
  have htwo : ∀ j, 2 ≤ incs r (s.part j) := by
    intro j
    have hj := hw j
    obtain ⟨hb,hpc⟩ := h.waiting_begun (hw j)
    rw [incs_eq hb]
    obtain hpc | hpc | hpc := hpc
    · simp only [Waiting,hpc,hda j] at hj
      omega
    · rw [hpc]
      decide
    · rw [hpc]
      decide
  have hfull := h.lock_le htwo
  have hm := hw master
  obtain ⟨hb,hpc⟩ := h.waiting_begun hm
  obtain hpc | hpc | hpc := hpc
  · simp only [Waiting,hpc,hda master] at hm
    omega
  · simp only [Waiting,hpc,hda master] at hm
    omega
  · have hin := (h.inside hb).1
    rw [hpc] at hin
    exact hin rfl

theorem phase_eq (hpc : (s.part i).pc = .entering phase) : phase=(s.part i).begun%2 := by
  cases h.position i with
  | late _ hl => simp [hpc] at hl
  | inside hin => exact absurd hin (by rw [hpc]; exact id)
  | before hph hb =>
    rw [hpc] at hph
    rw [hb]
    simpa using hph

theorem reached_le (k : ℕ) : s.reached k ≤ 1 := by
  rw [h.reached]
  split
  · exact le_rfl
  · split
    · exact le_rfl
    · exact Nat.zero_le 1

end

end Inv

end CounterBarrier

end PAMI.Atomic
