import PAMI.TspColl.ExchangeRuns

namespace PAMI.TspColl

open PAMI.Math Exchanges Option

/-- `_numphases`: the bits of `2 * size - 1`, an `int` for up to 2^30 ranks, are counted from minus one on. -/
def numphases (size : ℕ) : ℕ := doublings size

namespace Barrier

variable {N : ℕ}

/-- `_dest`; each phase has a send and a receive. -/
def dest (r : Fin N) (p : ℕ) : Option (Fin N) :=
  if p < numphases N then some (forward (2 ^ p) r) else none

def source (r : Fin N) (p : ℕ) : Option (Fin N) :=
  if p < numphases N then some (backward (2 ^ p) r) else none

theorem dest_eq_some {a b : Fin N} {p : ℕ} :
    dest a p = some b ↔ p < numphases N ∧ forward (2^p) a = b := by
  rw [dest,ite_none_right_eq_some,some_inj]

theorem source_eq_some {a b : Fin N} {p : ℕ} :
    source b p = some a ↔ p < numphases N ∧ backward (2^p) b = a := by
  rw [source,ite_none_right_eq_some,some_inj]

/-- The tables that the constructor sets, for all executions. -/
def tables (N : ℕ) : PhaseTables (Fin N) where
  numphases := fun _ => numphases N
  dest := fun r _ p => dest r p
  source := fun r _ p => source r p
  matched := by
    intro a b _ p
    rw [dest_eq_some, source_eq_some, forward_iff_backward]
  bounded := by
    intro a b _ p h
    exact ⟨(dest_eq_some.mp h).1, (dest_eq_some.mp h).1⟩

theorem disseminates (N : ℕ) : Disseminates (tables N) (numphases N) forward where
  zero := forward_zero
  add := forward_add
  dest := fun _ _ _ hp => if_pos hp
  cover := by
    intro a b
    obtain ⟨k,hk,hab⟩ := exists_forward a b
    exact ⟨k,hk.trans_le (le_two_pow_doublings N),hab⟩

/-- Whatever the order of the events: who is at the end of a barrier knows that all have started it, and
nobody is more than one barrier ahead. -/
theorem barrier_runs (N : ℕ) (s : Exchanges (Fin N) Unit Unit)
    (h : Run (step (tables N) noData) (fun _ _ => True) (new (tables N) fun _ => ()) s) :
    (∀ a b k, s.Entered b k (numphases N) → k ≤ (s.rank a).counter) ∧
      (∀ a b, ∀ k ∈ (s.rank b).completions, k ≤ (s.rank a).counter) ∧
      (∀ a b, (s.rank b).counter ≤ (s.rank a).counter + 1) ∧ ∀ r, (s.rank r).failed = false := by
  obtain ⟨hex,-⟩ := rounds_run (disseminates N) h
  have hstr : ∀ a b k, s.Entered b k (numphases N) → k≤(s.rank a).counter := by
    intro a b k hk
    refine hex.timely.started (b := b) (disseminates N) ⟨hk.1,?_⟩ a
    exact hk.2.imp_right fun hnow => ⟨hnow.1,le_min hnow.2 le_rfl⟩
  refine ⟨hstr,fun a b k hk => hstr a b k ?_,?_,fun r => (hex.counts r).failed⟩
  · have hle := (hex.counts b).phase_le
    have hnum : (tables N).numphases b = numphases N := rfl
    rw [(hex.counts b).completions,List.mem_range'_1] at hk
    rw [Entered]
    split at hk <;> omega
  · exact fun a b => hex.timely.exec_le (disseminates N) a b

theorem barrier_runs_two : ∃ s : Exchanges (Fin 2) Unit Unit,
    (s.rank ⟨0, by decide⟩).completions = [1] ∧ 1 ≤ (s.rank ⟨1, by decide⟩).counter := by
  have heve : (execEvents (step (tables 2) (noData (ι := Fin 2)))
      [.start ⟨0,by decide⟩,.transmit ⟨0,by decide⟩ 1 0,.senddone ⟨0,by decide⟩ 1 0,
        .start ⟨1,by decide⟩,.transmit ⟨1,by decide⟩ 1 0,.incoming ⟨1,by decide⟩ 1 0,
        .recvcomplete ⟨1,by decide⟩ 1 0] (new (tables 2) fun _ => ())).map
        (fun s => (s.rank ⟨0,by decide⟩).completions) = some [1] := by decide
  obtain ⟨s,hs,hdn⟩ := map_eq_some_iff.mp heve
  have hrun : Run (step (tables 2) noData) (fun _ _ => True) (new (tables 2) fun _ => ()) s :=
    Run.refl.execEvents _ (fun _ _ _ => trivial) hs
  obtain ⟨-,hstr,-,-⟩ := barrier_runs 2 s hrun
  exact ⟨s,hdn,hstr _ _ 1 (by rw [hdn]; exact List.mem_singleton_self 1)⟩

end Barrier

end PAMI.TspColl
