import Mathlib.Data.Finset.Max
import Mathlib.Order.Interval.Finset.Nat
import PAMI.Math.Dissemination
import PAMI.TspColl.ExchangeSteps

namespace PAMI.TspColl

open PAMI.Math PhasedState List

namespace Exchanges

variable {ι α μ : Type*} [DecidableEq ι] {T : PhaseTables ι} {C : PhaseClient ι α μ}
  {c : Network ι α μ} {d : PhasedState ι α μ → ι → ℕ → ℕ → Prop} {data : ι → α} {s s' : Exchanges ι α μ} {r a b : ι}
  {n p : ℕ} {e : ExchangeEvent ι}

/-- What is received is what is counted, and has come in. -/
structure Exact (T : PhaseTables ι) (s : Exchanges ι α μ) : Prop where
  complete : ∀ a n p, (s.message a n p).complete = s.counted T a n p
  arrived : ∀ a n p, (s.message a n p).complete = true → (s.message a n p).incoming = true

/-- A receive that completes is that of the execution after those that its receiver has counted. -/
def InTurn (T : PhaseTables ι) (s : Exchanges ι α μ) : ExchangeEvent ι → Prop
  | .recvcomplete a n p => ∀ b ∈ T.dest a n p, n = (s.rank b).recvcomplete p + 1
  | _ => True

omit [DecidableEq ι] in
instance (T : PhaseTables ι) (s : Exchanges ι α μ) (e : ExchangeEvent ι) : Decidable (s.InTurn T e) :=
  match e with
  | .recvcomplete a n p => inferInstanceAs (Decidable (∀ b ∈ T.dest a n p, n = (s.rank b).recvcomplete p + 1))
  | .start _ => isTrue trivial
  | .transmit _ _ _ => isTrue trivial
  | .senddone _ _ _ => isTrue trivial
  | .incoming _ _ _ => isTrue trivial

omit [DecidableEq ι] in
theorem exact_new : Exact T (new T data : Exchanges ι α μ) := by
  exact ⟨fun a n p => (counted_new a n p).symm,fun _ _ _ h => by contradiction⟩

omit [DecidableEq ι] in
theorem Exact.same (h : Exact T s) (hctd : ∀ a n p, s'.counted T a n p = s.counted T a n p)
    (hcom : ∀ a n p, (s'.message a n p).complete=(s.message a n p).complete)
    (hard : ∀ a n p, (s.message a n p).incoming=true → (s'.message a n p).incoming=true) :
    Exact T s' := by
  refine ⟨fun a n p => ?_,fun a n p hc => hard a n p (h.arrived a n p ?_)⟩
  · rw [hcom,hctd]
    exact h.complete a n p
  · rw [← hcom]
    exact hc

def ArrivesIf (d : PhasedState ι α μ → ι → ℕ → ℕ → Prop) (T : PhaseTables ι) (s : Exchanges ι α μ) :
    ExchangeEvent ι → Prop
  | .incoming a n p => d (s.phased T) a n p
  | _ => True

omit [DecidableEq ι] in
theorem arrivesIf_true (e : ExchangeEvent ι) : s.ArrivesIf (fun _ _ _ _ => True) T e := by
  cases e <;> trivial

omit [DecidableEq ι] in
theorem ArrivesIf.imp {d' : PhasedState ι α μ → ι → ℕ → ℕ → Prop} (h : s.ArrivesIf d T e)
    (hd : ∀ a n p, d (s.phased T) a n p → d' (s.phased T) a n p) : s.ArrivesIf d' T e := by
  cases e with
  | incoming a n p => exact hd a n p h
  | _ => trivial

theorem InTurn.fits {E : ℕ → Prop} (h : s.InTurn T e) (hars : s.ArrivesIf d T e)
    (ht : Timely T (s.phased T)) (hs : s.step T C e = some s') : s.Fits T (arriving d E) e := by
  cases e with
  | incoming a n p => exact hars
  | recvcomplete a n p =>
    intro b hb
    obtain ⟨⟨hinc,-⟩,-⟩ := Option.ite_none_right_eq_some.mp hs
    obtain rfl := h b hb
    exact ⟨a,hb,(ht.ordered a _ p).incoming hinc,fun _ => hinc⟩
  | _ => trivial

theorem Exact.step (hx : Exact T s) (h : Exchanging T C c data s) (hturn : s.InTurn T e)
    (hft : s.Fits T c e) (hs : s.step T C e = some s') : Exact T s' := by
  obtain ⟨hinc,hsm | ⟨a,n,p,b,a',rfl,hrec⟩⟩ := h.step_counts hft hs
  · exact hx.same (fun a n p => (hsm a n p).1) (fun a n p => (hsm a n p).2) hinc
  · obtain rfl := hturn b hrec.dest
    obtain rfl : a'=a := Option.some.inj (((T.matched _ _ _ _).mp hrec.counts).symm.trans
      ((T.matched _ _ _ _).mp hrec.dest))
    refine ⟨fun a1 n1 p1 => ?_,fun a1 n1 p1 hc => hinc _ _ _ ?_⟩
    · rw [hrec.complete,hrec.counted,hx.complete]
    · rw [hrec.complete,Bool.or_eq_true,decide_eq_true_iff] at hc
      obtain hold | ⟨rfl,rfl,rfl⟩ := hc
      · exact hx.arrived _ _ _ hold
      · exact hrec.incoming

theorem exchanging_run
    (h : Run (step T C) (fun s e => s.InTurn T e ∧ s.ArrivesIf d T e) (new T data) s) :
    Exchanging T C (arriving d fun _ => True) data s ∧ Exact T s := by
  refine h.invariant (P := fun s => Exchanging T C (arriving d fun _ => True) data s ∧ Exact T s)
    ⟨exchanging_new,exact_new⟩ fun s e s' hs hok hsp => ?_
  have hft := hok.1.fits (E := fun _ => True) hok.2 hs.1.timely hsp
  exact ⟨hs.1.step hft hsp,hs.2.step hs.1 hok.1 hft hsp⟩

/-- The messages of a rank in a phase are received in the order of the executions. -/
def Fifo (s : Exchanges ι α μ) : ExchangeEvent ι → Prop
  | .recvcomplete a n p => ∀ m < n, 0 < m → (s.message a m p).complete = true
  | _ => True

omit [DecidableEq ι] in
instance (s : Exchanges ι α μ) (e : ExchangeEvent ι) : Decidable (s.Fifo e) :=
  match e with
  | .recvcomplete a n p => inferInstanceAs (Decidable (∀ m < n, 0 < m → (s.message a m p).complete = true))
  | .start _ => isTrue trivial
  | .transmit _ _ _ => isTrue trivial
  | .senddone _ _ _ => isTrue trivial
  | .incoming _ _ _ => isTrue trivial

theorem Fifo.inTurn (h : s.Fifo e) (hT : ∀ a n m p, T.dest a n p = T.dest a m p) (ht : Timely T (s.phased T))
    (hx : Exact T s) (hs : s.step T C e = some s') : s.InTurn T e := by
  cases e with
  | recvcomplete a n p =>
    intro b hb
    obtain ⟨⟨hinc,hfre⟩,-⟩ := Option.ite_none_right_eq_some.mp hs
    have hord := ht.ordered a n p
    have hpos := ((ht.posted a n p).mp (hord.data (hord.incoming hinc))).2.pos
    have hnot : ¬ (0<n ∧ n≤(s.rank b).recvcomplete p) := by
      rw [hx.complete,← Bool.not_eq_true,counted_iff hb] at hfre
      exact hfre
    obtain hone | hmn := Nat.eq_or_lt_of_le hpos
    · omega
    · have hbef := h (n-1) (by omega) (by omega)
      rw [hx.complete,counted_iff ((hT a _ n p).trans hb)] at hbef
      omega
  | _ => trivial

theorem inTurn_run (hT : ∀ a n m p, T.dest a n p = T.dest a m p)
    (h : Run (step T C) (fun s e => s.Fifo e ∧ s.ArrivesIf d T e) (new T data) s) :
    Run (step T C) (fun s e => s.InTurn T e ∧ s.ArrivesIf d T e) (new T data) s := by
  induction h with
  | refl => exact .refl
  | step _ hok hs ih =>
    obtain ⟨hex,hexa⟩ := exchanging_run ih
    exact ih.step ⟨hok.1.inTurn hT hex.timely hexa hs,hok.2⟩ hs

/-- A rank is in a phase of an execution, or after it. -/
def Entered (s : Exchanges ι α μ) (r : ι) (n p : ℕ) : Prop :=
  0 < n ∧ (n < (s.rank r).counter ∨ n = (s.rank r).counter ∧ p ≤ (s.rank r).phase)

omit [DecidableEq ι] in
theorem entered_succ (hp : p < T.numphases r) : s.Entered r n (p+1) ↔ (s.phased T).Passed r n p := by
  simp only [Entered,PhasedState.Passed,phased]
  omega

omit [DecidableEq ι] in
theorem mem_postLog {numphases m q : ℕ} :
    (n, p) ∈ postLog numphases m q ↔ 0<n ∧ (n < m ∧ p<numphases ∨ n=m ∧ p<q) := by
  induction m generalizing q with
  | zero =>
    refine iff_of_false not_mem_nil ?_
    omega
  | succ m ih =>
    rw [postLog,mem_append,ih,mem_map]
    simp only [mem_range,Prod.mk.injEq]
    constructor
    · rintro (⟨hn,hlt⟩ | ⟨p',hp,rfl,rfl⟩)
      · omega
      · exact ⟨Nat.succ_pos m,.inr ⟨rfl,hp⟩⟩
    · rintro ⟨hn,⟨hlt,hp⟩ | ⟨rfl,hp⟩⟩
      · exact .inl ⟨hn,by omega⟩
      · exact .inr ⟨p,hp,rfl,rfl⟩

theorem nodup_postLog (numphases m q : ℕ) : (postLog numphases m q).Nodup := by
  induction m generalizing q with
  | zero => exact nodup_nil
  | succ m ih =>
    rw [postLog]
    refine (ih numphases).append (nodup_range.map fun p p' h => (Prod.mk.inj h).2)
      (disjoint_left.mpr ?_)
    rintro ⟨n,p⟩ hold hnew
    obtain ⟨p',-,heq⟩ := mem_map.mp hnew
    have hlt := (mem_postLog.mp hold).2
    have hn := (Prod.mk.inj heq).1
    omega

def Quiet (T : PhaseTables ι) (C : PhaseClient ι α μ) (s : Exchanges ι α μ) : Prop :=
  ∀ e, (∀ r, e ≠ .start r) → s.step T C e = none

theorem Quiet.transmitted (h : s.Quiet T C) (hpst : (s.message a n p).posted=true) :
    (s.message a n p).data.isSome := by
  by_contra hnn
  have hsp : s.step T C (.transmit a n p) = some _ := if_pos ⟨hpst,by simpa using hnn⟩
  rw [h _ fun r hr => by contradiction] at hsp
  contradiction

theorem Quiet.sent (h : s.Quiet T C) (hda : (s.message a n p).data.isSome) :
    (s.message a n p).sent=true := by
  by_contra hsn
  have hsp : s.step T C (.senddone a n p) = some _ := if_pos ⟨hda,by simpa using hsn⟩
  rw [h _ fun r hr => by contradiction] at hsp
  contradiction

theorem Quiet.came (h : s.Quiet T C) (hds : (T.dest a n p).isSome)
    (hda : (s.message a n p).data.isSome) : (s.message a n p).incoming=true := by
  by_contra hinc
  obtain ⟨b,hb⟩ := Option.isSome_iff_exists.mp hds
  obtain ⟨x,hx⟩ := Option.isSome_iff_exists.mp hda
  have hsp : s.step T C (.incoming a n p) = _ := if_neg hinc
  rw [h _ fun r hr => by contradiction,show (matching T).dest a n p = some b from hb,hx] at hsp
  contradiction

theorem Quiet.received (h : s.Quiet T C) (hds : (T.dest a n p).isSome)
    (hinc : (s.message a n p).incoming=true) : (s.message a n p).complete=true := by
  by_contra hcom
  obtain ⟨b,hb⟩ := Option.isSome_iff_exists.mp hds
  have hsp : s.step T C (.recvcomplete a n p) = _ := if_pos ⟨hinc,by simpa using hcom⟩
  rw [h _ fun r hr => by contradiction,show (matching T).dest a n p = some b from hb] at hsp
  contradiction

theorem Exchanging.quiet (h : Exchanging T C c data s) (hx : Exact T s) (hq : s.Quiet T C) (hn : 0<n)
    (hstr : ∀ r, n≤(s.rank r).counter) (r : ι) : s.Entered r n (T.numphases r+1) := by
  classical
  by_contra hr
  -- A rank whose phase is the smallest of those that are not over.
  have hex : ∃ q r, ¬ s.Entered r n (T.numphases r+1) ∧ (s.rank r).phase=q := ⟨_,r,hr,rfl⟩
  obtain ⟨r,hr,hq'⟩ := Nat.find_spec hex
  have hmin : ∀ a, ¬ s.Entered a n (T.numphases a+1) → (s.rank r).phase≤(s.rank a).phase :=
    fun a ha => hq'.trans_le (Nat.find_min' hex ⟨a,ha,rfl⟩)
  have hnow : ∀ a, ¬ s.Entered a n (T.numphases a+1) →
      (s.rank a).counter=n ∧ (s.rank a).phase<T.numphases a := by
    intro a ha
    have hle := hstr a
    have heed := (h.settled a).ended
    simp only [Entered,not_and,not_or,not_lt,not_le] at ha
    omega
  obtain ⟨hcnt,hlt⟩ := hnow r hr
  have hbeg : ∀ a, (T.dest a n (s.rank r).phase).isSome → (s.message a n (s.rank r).phase).data.isSome := by
    intro a hds
    obtain ⟨b,hb⟩ := Option.isSome_iff_exists.mp hds
    have hbou := (T.bounded a b n _ hb).1
    refine hq.transmitted ((h.timely.posted a n _).mpr ⟨hds,?_⟩)
    by_cases ha : s.Entered a n (T.numphases a+1)
    · refine .inl ((entered_succ hbou).mp ⟨hn,?_⟩)
      have hov := ha.2
      omega
    · obtain ⟨hca,hpa⟩ := hnow a ha
      obtain hless | heq := lt_or_eq_of_le (hmin a ha)
      · exact .inl ((entered_succ hbou).mp ⟨hn,.inr ⟨hca.symm,hless⟩⟩)
      · refine .inr ⟨hn,hca.symm,?_,?_⟩
        · rw [heq]
          exact (min_eq_left hpa.le).symm
        · exact decide_eq_true ⟨hpa,(h.settled a).started hpa⟩
  obtain hwai | ⟨hsou,hwai⟩ := (h.settled r).waits hlt
  · obtain ⟨hnn,-⟩ | ⟨-,hsum⟩ := (h.counts r).sends hlt
    · exact absurd hnn ((h.settled r).started hlt).ne'
    · rw [hcnt] at hsum
      split at hsum
      case isTrue hds =>
        rw [hq.sent (hbeg r hds),Bool.toNat_true] at hsum
        omega
      case isFalse => omega
  · obtain ⟨a,ha⟩ := Option.isSome_iff_exists.mp hsou
    rw [hcnt] at ha hwai
    have hds := (T.matched a r n _).mpr ha
    have hso := Option.isSome_of_eq_some hds
    have hcom := hq.received hso (hq.came hso (hbeg a hso))
    rw [hx.complete,counted_iff hds] at hcom
    omega

/-- In a run whose receives are all in turn, a rank enters the next phase when its send is completed and its message is
received, callbacks come once, and when nothing is under way, all executions are over. -/
theorem exchange_phases (h : Run (step T C) (InTurn T) (new T data) s) :
    (∀ r, (s.rank r).failed = false) ∧ (∀ r n p, p < T.numphases r → s.Entered r n (p + 1) →
        ((T.dest r n p).isSome → (s.message r n p).sent = true) ∧
        ∀ a, T.source r n p = some a → (s.message a n p).incoming = true ∧ (s.message a n p).complete = true) ∧
      (∀ r, (s.rank r).postrcvs.Nodup ∧
        ∀ n p, (n, p) ∈ (s.rank r).postrcvs ↔ p < T.numphases r ∧ s.Entered r n (p + 1)) ∧
      (∀ r, (s.rank r).completions.Nodup ∧ ∀ n, n ∈ (s.rank r).completions ↔ s.Entered r n (T.numphases r + 1)) ∧
      (s.Quiet T C → ∀ n, 0 < n → (∀ r, n ≤ (s.rank r).counter) → ∀ r, n ∈ (s.rank r).completions) := by
  have hall : Run (step T C) (fun s e => s.InTurn T e ∧ s.ArrivesIf (fun _ _ _ _ => True) T e)
      (new T data) s := h.imp fun s e hok => ⟨hok,arrivesIf_true e⟩
  obtain ⟨hex,hexa⟩ := exchanging_run hall
  have hcmp : ∀ r n, n ∈ (s.rank r).completions ↔ s.Entered r n (T.numphases r + 1) := by
    intro r n
    have hle := (hex.counts r).phase_le
    rw [(hex.counts r).completions,mem_range'_1,Entered]
    split <;> omega
  refine ⟨fun r => (hex.counts r).failed,fun r n p hp hent => ?_,fun r => ⟨?_,fun n p => ?_⟩,
    fun r => ⟨?_,hcmp r⟩,fun hq n hn hstr r => ?_⟩
  · have hpas := (entered_succ hp).mp hent
    refine ⟨hex.timely.sent r n p hpas,fun a ha => ?_⟩
    have hcom : (s.message a n p).complete=true := (hexa.complete a n p).trans (hex.timely.complete a r n p hpas ha)
    exact ⟨hexa.arrived a n p hcom,hcom⟩
  · rw [(hex.counts r).postrcvs]
    exact nodup_postLog _ _ _
  · rw [(hex.counts r).postrcvs,mem_postLog,Entered]
    omega
  · rw [(hex.counts r).completions]
    exact nodup_range'
  · exact (hcmp r n).mpr (hex.quiet hexa hq hn hstr r)

/-- Two ranks with two phases: in the first execution `true` sends to `false` in the first phase, in the
second one `false` sends to `true` in the second phase. -/
def alternate : PhaseTables Bool where
  numphases := fun _ => 2
  dest := fun a n p => if a = true ∧ n = 1 ∧ p = 0 ∨ a = false ∧ n = 2 ∧ p = 1 then some !a else none
  source := fun b n p => if b = false ∧ n = 1 ∧ p = 0 ∨ b = true ∧ n = 2 ∧ p = 1 then some !b else none
  matched := by
    intro a b n p
    cases a <;> cases b <;> simp
  bounded := by
    intro a b n p h
    have hp := (Option.ite_none_right_eq_some.mp h).1
    omega

def noData {ι : Type*} : PhaseClient ι Unit Unit :=
  ⟨fun _ _ x => x, fun _ _ _ x => x, fun _ _ _ _ x => x, fun _ _ _ x => x⟩

/-- Both ranks end the first execution and start the second one, in which the message of `false` comes. -/
theorem exchange_phases_alternate : ∃ s : Exchanges Bool Unit Unit,
    (s.rank true).completions = [1, 2] ∧ (s.rank false).completions = [1, 2] ∧
      (s.rank true).failed = false ∧ (s.message false 2 1).complete = true ∧ (s.rank true).postrcvs.Nodup := by
  have heve : (execEvents (fun s e => if s.InTurn alternate e then s.step alternate noData e else none)
      [.start true,.start false,.transmit true 1 0,.incoming true 1 0,.recvcomplete true 1 0,.senddone true 1 0,
        .start false,.start true,.transmit false 2 1,.incoming false 2 1,.recvcomplete false 2 1,.senddone false 2 1]
      (new alternate fun _ => ())).map (fun s => ((s.rank true).completions, (s.rank false).completions)) =
        some ([1,2], [1,2]) := by decide
  obtain ⟨s,hs,hcnt⟩ := Option.map_eq_some_iff.mp heve
  obtain ⟨htrue,hfalse⟩ := Prod.mk.inj hcnt
  obtain ⟨hfai,hent,hps,hdn,-⟩ := exchange_phases (Run.refl.checked _ hs)
  have hmem : 2 ∈ (s.rank true).completions := by
    rw [htrue]
    decide
  obtain ⟨htwo,hover⟩ : s.Entered true 2 3 := ((hdn true).2 2).mp hmem
  have hcam := (hent true 2 1 Nat.one_lt_two ⟨htwo,by omega⟩).2 false rfl
  exact ⟨s,htrue,hfalse,hfai true,hcam.2,(hps true).1⟩

/-- A message of the next execution is counted for a phase that has no receive in this one. -/
theorem early_message_counted : ¬ ∀ (T : PhaseTables Bool) (s : Exchanges Bool Unit Unit),
    Run (step T noData) (fun _ _ => True) (new T fun _ => ()) s → ∀ r, (s.rank r).failed = false := by
  intro hall
  have heve : (execEvents (step alternate noData)
      [.start true,.start false,.transmit true 1 0,.incoming true 1 0,.recvcomplete true 1 0,
        .start false,.transmit false 2 1,.incoming false 2 1,.recvcomplete false 2 1,
        .senddone true 1 0] (new alternate fun _ => ())).map (fun s => (s.rank true).failed) =
      some true := by decide
  obtain ⟨s,hs,hfai⟩ := Option.map_eq_some_iff.mp heve
  have hrun : Run (step alternate noData) (fun _ _ => True) (new alternate fun _ => ()) s :=
    Run.refl.execEvents _ (fun _ _ _ => trivial) hs
  exact absurd (hall alternate s hrun true) (by rw [hfai]; decide)

end Exchanges

namespace Exchanges

variable {ι α μ : Type*} [DecidableEq ι] {R : RoundTables ι} {C : PhaseClient ι α μ} {c : Network ι α μ}
  {data : ι → α} {s s' : Exchanges ι α μ}

variable {ι α μ : Type*} [DecidableEq ι] {T : PhaseTables ι} {C : PhaseClient ι α μ}
  {c : Network ι α μ} {data : ι → α} {s s' : Exchanges ι α μ} {r a b : ι}
  {n p rounds : ℕ} {shift : ℕ → ι → ι} {e : ExchangeEvent ι}

/-- In the first phases a rank counts as many messages as it has received, in whatever order; in the later
ones it counts what it has received. -/
structure Tallied (T : PhaseTables ι) (rounds : ℕ) (s : Exchanges ι α μ) : Prop where
  tally : ∀ a b p, p < rounds → T.dest a 1 p = some b → ∃ F : Finset ℕ,
    F.card = (s.rank b).recvcomplete p ∧ ∀ n, n ∈ F ↔ (s.message a n p).complete = true
  complete : ∀ a n p, rounds ≤ p → (s.message a n p).complete = s.counted T a n p
  arrived : ∀ a n p, (s.message a n p).complete = true → (s.message a n p).incoming = true

omit [DecidableEq ι] in
theorem tallied_new : Tallied T rounds (new T data : Exchanges ι α μ) :=
  ⟨fun _ _ _ _ _ => ⟨∅,rfl,fun n => iff_of_false (Finset.notMem_empty n) Bool.false_ne_true⟩,
    fun a n p _ => (counted_new a n p).symm,fun _ _ _ h => by contradiction⟩

omit [DecidableEq ι] in
theorem recvcomplete_le (hds : ∀ n, T.dest a n p = some b)
    (hctd : ∀ n, s.counted T a n p = true → s'.counted T a n p = true) :
    (s.rank b).recvcomplete p ≤ (s'.rank b).recvcomplete p := by
  obtain hzr | hpos := Nat.eq_zero_or_pos ((s.rank b).recvcomplete p)
  · exact hzr.trans_le (Nat.zero_le _)
  · exact ((counted_iff (hds _)).mp (hctd _ ((counted_iff (hds _)).mpr ⟨hpos,le_rfl⟩))).2

omit [DecidableEq ι] in
theorem recvcomplete_succ (hds : ∀ n, T.dest a n p = some b)
    (hctd : ∀ n, s'.counted T a n p = (s.counted T a n p || decide (n = (s.rank b).recvcomplete p+1))) :
    (s'.rank b).recvcomplete p = (s.rank b).recvcomplete p+1 := by
  have hiff : ∀ n, 0<n ∧ n≤(s'.rank b).recvcomplete p ↔
      (0<n ∧ n≤(s.rank b).recvcomplete p) ∨ n=(s.rank b).recvcomplete p+1 := by
    intro n
    rw [← counted_iff (hds n),hctd,Bool.or_eq_true,counted_iff (hds n),decide_eq_true_iff]
  have hnx := (hiff ((s.rank b).recvcomplete p+1)).mpr (.inr rfl)
  have hla := (hiff ((s'.rank b).recvcomplete p)).mp ⟨by omega,le_rfl⟩
  omega

omit [DecidableEq ι] in
theorem Tallied.counts_next (h : Tallied T rounds s) (ht : Timely T (s.phased T)) (hp : p < rounds)
    (hds : ∀ n, T.dest a n p = some b) (hinc : (s.message a n p).incoming=true)
    (hfre : (s.message a n p).complete=false) :
    (s.message a ((s.rank b).recvcomplete p+1) p).data.isSome := by
  obtain ⟨F,hcard,hF⟩ := h.tally a b p hp (hds 1)
  have hnew : n ∉ F := fun hn => by
    rw [(hF n).mp hn] at hfre
    contradiction
  have hda : ∀ m ∈ insert n F, (s.message a m p).data.isSome := by
    intro m hm
    obtain rfl | hm := Finset.mem_insert.mp hm
    · exact (ht.ordered a m p).incoming hinc
    · exact (ht.ordered a m p).incoming (h.arrived a m p ((hF m).mp hm))
  have hbeg : ∀ m ∈ insert n F, (s.phased T).Begun a m p := fun m hm =>
    ((ht.posted a m p).mp ((ht.ordered a m p).data (hda m hm))).2
  -- The last of the messages that came in is not before the next one to be counted.
  obtain ⟨m,hm,hmax⟩ := (insert n F).exists_max_image id (Finset.insert_nonempty n F)
  have hsub : insert n F ⊆ Finset.Icc 1 m := fun k hk => Finset.mem_Icc.mpr ⟨(hbeg k hk).pos,hmax k hk⟩
  have hle := Finset.card_le_card hsub
  rw [Finset.card_insert_of_notMem hnew,hcard,Nat.card_Icc,Nat.add_sub_cancel] at hle
  obtain heq | hlt := eq_or_lt_of_le hle
  · rw [heq]
    exact hda m hm
  · have hpas := (hbeg m hm).passed_earlier (q := p) (Nat.succ_pos _) hlt
    have hso : (T.dest a ((s.rank b).recvcomplete p+1) p).isSome=true := by rw [hds]; rfl
    exact (ht.ordered a _ p).sent (ht.sent a _ p hpas hso)

section

variable (h : Exchanging T C c data s) (hx : Tallied T rounds s) (hT : Disseminates T rounds shift)
include h hx hT

theorem Exchanging.next_after_rounds (hp : rounds≤p) (hds : T.dest a n p = some b)
    (hinc : (s.message a n p).incoming=true) (hfre : (s.message a n p).complete=false) :
    n = (s.rank b).recvcomplete p+1 := by
  have ht := h.timely
  have hbeg := ((ht.posted a n p).mp ((ht.ordered a n p).data ((ht.ordered a n p).incoming hinc))).2
  have hrel : (s.phased T).Released a n rounds := by
    obtain ⟨hpos,hlt | ⟨heq,hlt⟩⟩ | ⟨hpos,heq,hpha,-⟩ := hbeg
    · exact ⟨hpos,.inl hlt⟩
    · exact ⟨hpos,.inr ⟨heq,hp.trans hlt.le⟩⟩
    · exact ⟨hpos,.inr ⟨heq,hp.trans hpha.le⟩⟩
  have hle : n≤(s.rank b).counter := ht.started hT hrel b
  have hnot : ¬ n≤(s.rank b).recvcomplete p := by
    rw [hx.complete a n p hp,← Bool.not_eq_true,counted_iff hds] at hfre
    exact fun hn => hfre ⟨hrel.1,hn⟩
  obtain hone | hmn := Nat.eq_or_lt_of_le hrel.1
  · omega
  · have hpas : (s.phased T).Passed b (n-1) p := ⟨by omega,.inl (by simp only [phased]; omega)⟩
    have := h.counted_of_passed (T.bounded a b n p hds).2 hpas
    omega

theorem Exchanging.fits_rounds (hs : s.step T C e = some s') :
    s.Fits T (arriving (fun _ _ _ _ => True) (rounds ≤ ·)) e := by
  cases e with
  | recvcomplete a n p =>
    intro b hb
    obtain ⟨⟨hinc,hfre⟩,-⟩ := Option.ite_none_right_eq_some.mp hs
    by_cases hp : p < rounds
    · have hds : ∀ m, T.dest a m p = some b := fun m => (hT.dest a m p hp).trans ((hT.dest a n p hp).symm.trans hb)
      exact ⟨a,hds _,hx.counts_next h.timely hp hds hinc hfre,fun hle => by omega⟩
    · have hnx := h.next_after_rounds hx hT (not_lt.mp hp) hb hinc hfre
      rw [← hnx]
      exact ⟨a,hb,(h.timely.ordered a n p).incoming hinc,fun _ => hinc⟩
  | _ => trivial

end

theorem Tallied.step (hx : Tallied T rounds s)
    (h : Exchanging T C (arriving (fun _ _ _ _ => True) (rounds ≤ ·)) data s)
    (hT : Disseminates T rounds shift) (hs : s.step T C e = some s') : Tallied T rounds s' := by
  have hall : ∀ {a b p}, p < rounds → T.dest a 1 p = some b → ∀ m, T.dest a m p = some b :=
    fun hp hb m => (hT.dest _ m _ hp).trans ((hT.dest _ 1 _ hp).symm.trans hb)
  obtain ⟨hinc,hsm | ⟨a,n,p,b,a',rfl,hrec⟩⟩ := h.step_counts (h.fits_rounds hx hT hs) hs
  · refine ⟨fun a b p hp hb => ?_,fun a n p hp => ?_,fun a n p hc => hinc a n p ?_⟩
    · obtain ⟨F,hcard,hF⟩ := hx.tally a b p hp hb
      refine ⟨F,hcard.trans (le_antisymm ?_ ?_),fun n => by rw [hF,(hsm a n p).2]⟩
      · exact recvcomplete_le (hall hp hb) fun n hn => (hsm a n p).1.trans hn
      · exact recvcomplete_le (hall hp hb) fun n hn => (hsm a n p).1.symm.trans hn
    · rw [(hsm a n p).1,(hsm a n p).2]
      exact hx.complete a n p hp
    · rw [(hsm a n p).2] at hc
      exact hx.arrived a n p hc
  · have hfre := hrec.fresh
    have hfrom : ∀ {a1 a2 b n p}, T.dest a1 n p = some b → T.dest a2 n p = some b → a1=a2 :=
      fun h1 h2 => Option.some.inj (((T.matched _ _ _ _).mp h1).symm.trans ((T.matched _ _ _ _).mp h2))
    refine ⟨fun a1 b1 p1 hp hb => ?_,fun a1 n1 p1 hp => ?_,fun a1 n1 p1 hc => hinc _ _ _ ?_⟩
    · obtain ⟨F,hcard,hF⟩ := hx.tally a1 b1 p1 hp hb
      by_cases heq : a1=a ∧ p1=p
      · obtain ⟨rfl,rfl⟩ := heq
        obtain rfl : b1=b := Option.some.inj ((hall hp hb n).symm.trans hrec.dest)
        obtain rfl : a'=a1 := hfrom (hrec.counts) (hall hp hb _)
        have hn : n ∉ F := fun hn => by
          rw [(hF n).mp hn] at hfre
          contradiction
        refine ⟨insert n F,?_,fun m => ?_⟩
        · rw [Finset.card_insert_of_notMem hn,hcard]
          refine (recvcomplete_succ (hall hp hb) fun m => ?_).symm
          rw [hrec.counted]
          simp
        · rw [Finset.mem_insert,hF,hrec.complete]
          simp [or_comm]
      · have hsm : ∀ m, s'.counted T a1 m p1 = s.counted T a1 m p1 := by
          intro m
          rw [hrec.counted]
          have hne : ¬ (a1=a' ∧ m=(s.rank b).recvcomplete p+1 ∧ p1=p) := by
            rintro ⟨rfl,rfl,rfl⟩
            have hb' : T.dest a1 n p1 = some b :=
              (hT.dest a1 n p1 hp).trans ((hT.dest a1 _ p1 hp).symm.trans hrec.counts)
            exact heq ⟨hfrom hb' hrec.dest,rfl⟩
          simp [hne]
        refine ⟨F,hcard.trans (le_antisymm ?_ ?_),fun m => ?_⟩
        · exact recvcomplete_le (hall hp hb) fun m hm => (hsm m).trans hm
        · exact recvcomplete_le (hall hp hb) fun m hm => (hsm m).symm.trans hm
        · rw [hF,hrec.complete]
          have hne : ¬ (a1=a ∧ m=n ∧ p1=p) := fun h => heq ⟨h.1,h.2.2⟩
          simp [hne]
    · rw [hrec.complete,hrec.counted,hx.complete _ _ _ hp]
      by_cases heq : p1=p
      · subst heq
        have hnx := h.next_after_rounds hx hT hp hrec.dest hrec.incoming hfre
        obtain rfl : a'=a := hfrom hrec.counts (hnx ▸ hrec.dest)
        rw [hnx]
      · simp [heq]
    · rw [hrec.complete,Bool.or_eq_true,decide_eq_true_iff] at hc
      obtain hold | ⟨rfl,rfl,rfl⟩ := hc
      · exact hx.arrived _ _ _ hold
      · exact hrec.incoming

section

variable (hT : Disseminates T rounds shift) (h : Run (step T C) (fun _ _ => True) (new T data) s)
include hT h

theorem rounds_run :
    Exchanging T C (arriving (fun _ _ _ _ => True) (rounds ≤ ·)) data s ∧ Tallied T rounds s := by
  refine h.invariant (P := fun s => Exchanging T C (arriving (fun _ _ _ _ => True) (rounds ≤ ·)) data s ∧ Tallied T rounds s)
    ⟨exchanging_new,tallied_new⟩ fun s e s' hs _ hsp => ⟨?_,?_⟩
  · exact hs.1.step (hs.1.fits_rounds hs.2 hT hsp) hsp
  · exact hs.2.step hs.1 hT hsp

end

end Exchanges

end PAMI.TspColl
