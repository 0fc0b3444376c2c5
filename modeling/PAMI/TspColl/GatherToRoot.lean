import PAMI.TspColl.AlltoallRanks
import PAMI.TspColl.Scatter

namespace PAMI.TspColl

open PAMI.Math Function List Option Nat Bool

/-- The calls of a gather; the cells of all blocks are different ones. A contiguous message goes to the place that the
receive queue shows when it comes in, and needs a contiguous receive type; the pieces of another one go through the queue. -/
structure GatherCalls (N : ℕ) (β : Type*) extends RootedCalls N β where
  all_distinct : Set.InjOn (call root).rtype.cell (Set.Iio (N * (call root).len))
  direct : Fin N → Bool
  direct_cell : ∀ i q, direct i = true → (call root).rtype.cell q = q

namespace GatherCalls

variable {N : ℕ} {β : Type*} (C : GatherCalls N β)

/-- The cell of a byte of a block in the receive buffer of the root. -/
def rcell (a : Fin N) (q : ℕ) : ℕ := (C.call C.root).rcell a q

def source (a : Fin N) (q : ℕ) : β := (C.call a).source 0 q

/-- What the first copy of the root writes is inside its own block. -/
def CopyInside : Prop := ∀ q < C.len, ∃ q' < C.len, C.root * C.len + q = C.rcell C.root q'

end GatherCalls

/-- A message to the root, and how much of it was delivered. -/
structure GatherMessage where
  incoming : Bool
  taken : ℕ
  sent : Bool
  complete : Bool

/-- The ranks of a gather after their resets. `rbuf` is that of the root, and `rcvpwq` is its only receive queue: the
block that it is configured for, and the bytes that were produced. -/
structure Gathers (N : ℕ) (β : Type*) where
  kicked : Fin N → Bool
  rcvcount : Fin N → ℕ
  completions : Fin N → ℕ
  rbuf : ℕ → β
  rcvpwq : Fin N × ℕ
  message : Fin N → GatherMessage

inductive GatherEvent (N : ℕ)
  | kick (r : Fin N)
  | sendDone (i : Fin N)
  | incoming (i : Fin N)
  | deliver (i : Fin N) (n : ℕ)
  | complete (i : Fin N)

namespace Gathers

variable {N : ℕ} {β : Type*}

def reset (C : GatherCalls N β) : Gathers N β where
  kicked := fun _ => false
  rcvcount := fun _ => 0
  completions := fun _ => 0
  rbuf := (C.call C.root).rbuf
  rcvpwq := (C.root, 0)
  message := fun _ => ⟨false, 0, false, false⟩

variable (C : GatherCalls N β) (s : Gathers N β)

def setMessage (i : Fin N) (m : GatherMessage) : Gathers N β := { s with message := update s.message i m }

/-- `_cb_complete`. -/
def callback (r : Fin N) : Gathers N β :=
  { s with completions := update s.completions r (s.completions r + 1) }

/-- The root's own block: `memcpy`, and then the copy by the types. -/
def copyOwn : Gathers N β :=
  let raw := (List.range C.len).map (C.call C.root).sbuf
  { s with
    rbuf := write (C.rcell C.root) ((List.range C.len).map (C.source C.root))
      (write (fun q => C.root * C.len + q) raw s.rbuf) }

def kick (r : Fin N) : Gathers N β :=
  let s := { s with kicked := update s.kicked r true }
  if r = C.root then
    ({ s.copyOwn C with rcvcount := update s.rcvcount r (s.rcvcount r + 1) }).callback r
  else s

def cb_senddone (i : Fin N) : Gathers N β := ({ s.setMessage i { s.message i with sent := true } with
    rcvcount := update s.rcvcount i N }).callback i

def cb_incoming (i : Fin N) : Gathers N β :=
  { s.setMessage i { s.message i with incoming := true } with rcvpwq := (i, 0) }

def place (i : Fin N) (k : ℕ) : ℕ :=
  if C.direct i then i * (C.call C.root).rpwqlen + ((s.message i).taken + k) else C.rcell s.rcvpwq.1 (s.rcvpwq.2 + k)

def deliver (i : Fin N) (n : ℕ) : Gathers N β :=
  let piece := (List.range n).map fun q => C.source i ((s.message i).taken + q)
  { s.setMessage i { s.message i with taken := (s.message i).taken + n } with
    rbuf := write (s.place C i) piece s.rbuf
    rcvpwq := if C.direct i then s.rcvpwq else (s.rcvpwq.1, s.rcvpwq.2 + n) }

def cb_recvcomplete (i : Fin N) : Gathers N β :=
  let s := { s.setMessage i { s.message i with complete := true } with
    rcvcount := update s.rcvcount C.root (s.rcvcount C.root + 1) }
  if N ≤ s.rcvcount C.root then s.callback C.root else s

def Room (i : Fin N) (n : ℕ) : Prop := (s.message i).taken + n ≤ C.len ∧ (C.direct i = true ∨ s.rcvpwq.2 + n ≤ C.len)

instance (i : Fin N) (n : ℕ) : Decidable (Room C s i n) := inferInstanceAs (Decidable (_ ∧ _))

def step : GatherEvent N → Option (Gathers N β)
  | .kick r => if s.kicked r then none else some (s.kick C r)
  | .sendDone i =>
    if i ≠ C.root ∧ s.kicked i = true ∧ (s.message i).sent = false then some (s.cb_senddone i) else none
  | .incoming i =>
    if i ≠ C.root ∧ s.kicked i = true ∧ (s.message i).incoming = false then some (s.cb_incoming i) else none
  | .deliver i n => if (s.message i).incoming = true ∧ Room C s i n then some (s.deliver C i n) else none
  | .complete i =>
    if (s.message i).incoming = true ∧ (s.message i).taken = C.len ∧ (s.message i).complete = false then
      some (s.cb_recvcomplete C i)
    else none

/-- The root kicks after all blocks were received, and a message comes in while no other one has bytes to come that go
through the receive queue. -/
def InTurn : GatherEvent N → Prop
  | .kick r => r = C.root → ∀ i, i ≠ C.root → (s.message i).complete = true
  | .incoming _ => ∀ j, (s.message j).incoming = true → C.direct j = false → (s.message j).taken = C.len
  | _ => True

instance (e : GatherEvent N) : Decidable (InTurn C s e) :=
  match e with
  | .kick r => inferInstanceAs (Decidable (r = C.root → ∀ i, i ≠ C.root → (s.message i).complete = true))
  | .incoming _ => inferInstanceAs
    (Decidable (∀ j, (s.message j).incoming = true → C.direct j = false → (s.message j).taken = C.len))
  | .sendDone _ | .deliver _ _ | .complete _ => inferInstanceAs (Decidable True)

/-- All kicks are over, and all messages were sent and received. -/
def Quiet : Prop :=
  (∀ r, s.kicked r = true) ∧ ∀ i, i ≠ C.root → (s.message i).sent = true ∧ (s.message i).complete = true

instance : Decidable (Quiet C s) := inferInstanceAs (Decidable (_ ∧ _))

def HasBlocks : Prop := (∀ a, ∀ q < C.len, s.rbuf (C.rcell a q) = C.source a q) ∧
    ∀ c, (∀ a : Fin N, ∀ q < C.len, C.rcell a q ≠ c) → s.rbuf c = (C.call C.root).rbuf c

/-- The callback of each rank is called once, that of the root not before all blocks are there. -/
structure Correct : Prop where
  once : ∀ r, s.completions r ≤ 1
  done : 0 < s.completions C.root →
    s.kicked C.root = true ∧ (∀ i, i ≠ C.root → (s.message i).complete = true) ∧ HasBlocks C s
  called : Quiet C s → ∀ r, s.completions r = 1

variable {C s}

/-- What holds while all steps are in turn. -/
structure Inv (C : GatherCalls N β) (s : Gathers N β) : Prop where
  root : s.message C.root = ⟨false, 0, false, false⟩
  idle : ∀ i, (s.message i).incoming = false → (s.message i).taken = 0
  taken : ∀ i, (s.message i).taken ≤ C.len
  ended : ∀ i, (s.message i).complete = true → (s.message i).incoming = true ∧ (s.message i).taken = C.len
  sent : ∀ i, (s.message i).sent = true → s.kicked i = true
  kicked_complete : s.kicked C.root = true → ∀ i, i ≠ C.root → (s.message i).complete = true
  rcvcount : s.rcvcount C.root = tally (fun i => (s.message i).complete) + if s.kicked C.root then 1 else 0
  rcvpwq : ∀ i, (s.message i).incoming = true → C.direct i = false → (s.message i).taken < C.len →
    s.rcvpwq = (i, (s.message i).taken)
  blocks : ∀ i, ∀ q < (s.message i).taken, s.rbuf (C.rcell i q) = C.source i q
  own : s.kicked C.root = true → ∀ q < C.len, s.rbuf (C.rcell C.root q) = C.source C.root q
  frame : ∀ c, (∀ a : Fin N, ∀ q < C.len, C.rcell a q ≠ c) → s.rbuf c = (C.call C.root).rbuf c
  completions : ∀ r, s.completions r =
    if r = C.root then if s.kicked C.root then 1 else 0 else if (s.message r).sent then 1 else 0

namespace Inv

variable {r i : Fin N} {n : ℕ}

theorem reset (C : GatherCalls N β) : Inv C (reset C) where
  root := rfl
  idle _ _ := rfl
  taken _ := zero_le _
  ended _ h := absurd h Bool.false_ne_true
  sent _ h := absurd h Bool.false_ne_true
  kicked_complete h := absurd h Bool.false_ne_true
  rcvcount := by
    have htal : tally (fun i => ((Gathers.reset C).message i).complete)=0 := tally_eq_zero fun _ => rfl
    rw [htal]
    rfl
  rcvpwq _ h := absurd h Bool.false_ne_true
  blocks _ q hq := absurd hq (Nat.not_lt_zero q)
  own h := absurd h Bool.false_ne_true
  frame _ _ := rfl
  completions r := by
    split
    · rfl
    · rfl

theorem rcell_inj (C : GatherCalls N β) {a b : Fin N} {q q' : ℕ} (hq : q<C.len) (hq' : q'<C.len)
    (h : C.rcell a q = C.rcell b q') : a=b ∧ q=q' :=
  (C.call C.root).rcell_inj C.all_distinct hq hq' h

theorem changed {γ : Type} (f : GatherMessage → γ) (m : GatherMessage) (j : Fin N) :
    f ((s.setMessage i m).message j) = if j=i then f m else f (s.message j) :=
  (congrArg f (update_apply ..)).trans (apply_ite f ..)

theorem same {γ : Type} (f : GatherMessage → γ) {m : GatherMessage} (hf : f m = f (s.message i)) (j : Fin N) :
    f ((s.setMessage i m).message j) = f (s.message j) := by
  rw [changed f m]
  split
  · rename_i hj
    rw [hj,hf]
  · rfl

theorem kickOther (h : Inv C s) (hr : r≠C.root) : Inv C { s with kicked := update s.kicked r true } := by
  have hrt : update s.kicked r true C.root = s.kicked C.root := update_of_ne (Ne.symm hr) ..
  refine ⟨h.root,h.idle,h.taken,h.ended,?_,?_,?_,h.rcvpwq,h.blocks,?_,h.frame,?_⟩
  · intro i hi
    change update s.kicked r true i=true
    by_cases hir : i=r
    · rw [hir,update_self]
    · rw [update_of_ne hir]
      exact h.sent i hi
  · intro hk
    exact h.kicked_complete (hrt.symm.trans hk)
  · change _ = _+if update s.kicked r true C.root then 1 else 0
    rw [hrt]
    exact h.rcvcount
  · intro hk
    exact h.own (hrt.symm.trans hk)
  · intro k
    change _ = if k=C.root then if update s.kicked r true C.root then 1 else 0 else _
    rw [hrt]
    exact h.completions k

theorem copyOwn_spec (hC : C.CopyInside) :
    (∀ q<C.len, (s.copyOwn C).rbuf (C.rcell C.root q) = C.source C.root q) ∧
      ∀ c, (∀ q<C.len, C.rcell C.root q ≠ c) → (s.copyOwn C).rbuf c = s.rbuf c := by
  constructor
  · intro q hq
    refine (write_cell _ ?_ (by rwa [length_map,length_range])).trans ?_
    · intro i j hi hj heq
      rw [length_map,length_range] at hi hj
      exact (rcell_inj C hi hj heq).2
    · rw [getElem_map,getElem_range]
  · intro c hc
    have hraw : ∀ q<C.len, C.root*C.len+q≠c := by
      intro q hq heq
      obtain ⟨q',hq',hcell⟩ := hC q hq
      exact hc q' hq' (hcell.symm.trans heq)
    exact (write_range_of_ne hc).trans (write_range_of_ne hraw)

theorem kickRoot (h : Inv C s) (hC : C.CopyInside) (hk : s.kicked C.root = false)
    (hall : ∀ i, i≠C.root → (s.message i).complete=true) : Inv C (s.kick C C.root) := by
  obtain ⟨hown,hoth⟩ := copyOwn_spec (s := s) hC
  have hkick : s.kick C C.root = ({ ({ s with kicked := update s.kicked C.root true } : Gathers N β).copyOwn C
      with rcvcount := update s.rcvcount C.root (s.rcvcount C.root+1) }).callback C.root := if_pos rfl
  have hnow : update s.kicked C.root true C.root=true := update_self ..
  rw [hkick]
  refine ⟨h.root,h.idle,h.taken,h.ended,?_,fun _ => hall,?_,h.rcvpwq,?_,fun _ => hown,?_,?_⟩
  · intro i hi
    change update s.kicked C.root true i=true
    by_cases hir : i=C.root
    · rw [hir,update_self]
    · rw [update_of_ne hir]
      exact h.sent i hi
  · change update s.rcvcount C.root (s.rcvcount C.root+1) C.root =
      _+if update s.kicked C.root true C.root then 1 else 0
    rw [update_self,h.rcvcount,hk,if_pos hnow]
    rfl
  · intro i q hq
    have hi : i≠C.root := by
      intro heq
      have hq : q<(s.message i).taken := hq
      rw [heq,h.root] at hq
      exact Nat.not_lt_zero q hq
    refine (hoth _ ?_).trans (h.blocks i q hq)
    intro q' hq' heq
    exact hi (rcell_inj C hq' (hq.trans_le (h.taken i)) heq).1.symm
  · intro c hc
    exact (hoth c (hc C.root)).trans (h.frame c hc)
  · intro k
    change update s.completions C.root (s.completions C.root+1) k =
      if k=C.root then if update s.kicked C.root true C.root then 1 else 0 else _
    by_cases hkr : k=C.root
    · rw [hkr,update_self,h.completions,if_pos rfl,if_pos rfl,hk,if_pos hnow]
      rfl
    · rw [update_of_ne hkr,h.completions,if_neg hkr,if_neg hkr]
      rfl

section

variable (h : Inv C s) (hi : (s.message i).incoming = true)
include h hi

theorem ne_root : i≠C.root := by
  intro heq
  rw [heq,h.root] at hi
  contradiction

omit h hi in
theorem sendDone (h : Inv C s) (hi : i≠C.root) (hk : s.kicked i = true) (hnot : (s.message i).sent=false) :
    Inv C (s.cb_senddone i) := by
  have hcom := same (s := s) (i := i) (m := { s.message i with sent := true }) GatherMessage.complete rfl
  have hinc := same (s := s) (i := i) (m := { s.message i with sent := true }) GatherMessage.incoming rfl
  have htak := same (s := s) (i := i) (m := { s.message i with sent := true }) GatherMessage.taken rfl
  have hsn := changed (s := s) (i := i) GatherMessage.sent { s.message i with sent := true }
  constructor
  · exact (update_of_ne (Ne.symm hi) ..).trans h.root
  · exact fun j hj => (htak j).trans (h.idle j ((hinc j).symm.trans hj))
  · exact fun j => (htak j).trans_le (h.taken j)
  · intro j hj
    have hend := h.ended j ((hcom j).symm.trans hj)
    exact ⟨(hinc j).trans hend.1,(htak j).trans hend.2⟩
  · intro j hj
    have hj := (hsn j).symm.trans hj
    split at hj
    · rename_i heq
      exact heq ▸ hk
    · exact h.sent j hj
  · exact fun hrt j hj => (hcom j).trans (h.kicked_complete hrt j hj)
  · have htal : tally (fun j => ((s.cb_senddone i).message j).complete) = tally fun j => (s.message j).complete :=
      congrArg tally (funext hcom)
    rw [htal]
    exact (update_of_ne (Ne.symm hi) ..).trans h.rcvcount
  · intro j hj hd hlt
    have hq := h.rcvpwq j ((hinc j).symm.trans hj) hd ((htak j).symm.trans_lt hlt)
    exact hq.trans (congrArg (Prod.mk j) (htak j).symm)
  · exact fun j q hq => h.blocks j q (hq.trans_eq (htak j))
  · exact h.own
  · exact h.frame
  · intro r
    change update s.completions i (s.completions i+1) r =
      if r=C.root then if s.kicked C.root then 1 else 0
      else if ((s.setMessage i { s.message i with sent := true }).message r).sent then 1 else 0
    rw [hsn]
    by_cases hr : r=i
    · rw [hr,update_self,h.completions,if_neg hi,if_neg hi,hnot,if_pos rfl]
      rfl
    · rw [update_of_ne hr,if_neg hr]
      exact h.completions r

omit h hi in
theorem cb_incoming (h : Inv C s) (hi : i≠C.root) (hnot : (s.message i).incoming=false)
    (hturn : ∀ j, (s.message j).incoming=true → C.direct j = false → (s.message j).taken=C.len) :
    Inv C (s.cb_incoming i) := by
  have hcom := same (s := s) (i := i) (m := { s.message i with incoming := true }) GatherMessage.complete rfl
  have hsn := same (s := s) (i := i) (m := { s.message i with incoming := true }) GatherMessage.sent rfl
  have htak := same (s := s) (i := i) (m := { s.message i with incoming := true }) GatherMessage.taken rfl
  have hinc := changed (s := s) (i := i) GatherMessage.incoming { s.message i with incoming := true }
  constructor
  · exact (update_of_ne (Ne.symm hi) ..).trans h.root
  · intro j hj
    have hj := (hinc j).symm.trans hj
    have htj := htak j
    split at hj
    · contradiction
    · exact htj.trans (h.idle j hj)
  · exact fun j => (htak j).trans_le (h.taken j)
  · intro j hj
    have hend := h.ended j ((hcom j).symm.trans hj)
    refine ⟨(hinc j).trans ?_,(htak j).trans hend.2⟩
    split
    · rfl
    · exact hend.1
  · exact fun j hj => h.sent j ((hsn j).symm.trans hj)
  · exact fun hrt j hj => (hcom j).trans (h.kicked_complete hrt j hj)
  · have htal : tally (fun j => ((s.cb_incoming i).message j).complete) = tally fun j => (s.message j).complete :=
      congrArg tally (funext hcom)
    rw [htal]
    exact h.rcvcount
  · intro j hj hd hlt
    have hj := (hinc j).symm.trans hj
    have htj := htak j
    split at hj
    · rename_i heq
      subst heq
      exact congrArg (Prod.mk j) (htj.trans (h.idle j hnot)).symm
    · have hlt := htj.symm.trans_lt hlt
      rw [hturn j hj hd] at hlt
      exact absurd hlt (lt_irrefl _)
  · exact fun j q hq => h.blocks j q (hq.trans_eq (htak j))
  · exact h.own
  · exact h.frame
  · intro r
    refine (h.completions r).trans ?_
    have hr := hsn r
    change _ = if r=C.root then if s.kicked C.root then 1 else 0 else
      if ((s.setMessage i { s.message i with incoming := true }).message r).sent then 1 else 0
    rw [hr]

theorem place_eq {k : ℕ} (hk : (s.message i).taken+k<C.len) :
    s.place C i k = C.rcell i ((s.message i).taken+k) := by
  rw [place]
  split
  case isTrue hd => rw [GatherCalls.rcell,A2aCall.rcell,C.direct_cell i _ hd]
  case isFalse hd => rw [h.rcvpwq i hi (eq_false_of_not_eq_true hd) (lt_of_le_of_lt (Nat.le_add_right _ k) hk)]

theorem deliver_spec (hrm : (s.message i).taken+n≤C.len) :
    (∀ k<n, (s.deliver C i n).rbuf (C.rcell i ((s.message i).taken+k)) = C.source i ((s.message i).taken+k)) ∧
      ∀ c, (∀ k<n, C.rcell i ((s.message i).taken+k) ≠ c) → (s.deliver C i n).rbuf c = s.rbuf c := by
  constructor
  · intro k hk
    rw [← h.place_eq hi (by omega)]
    refine (write_cell _ ?_ (by rwa [length_map,length_range])).trans ?_
    · intro a b ha hb heq
      rw [length_map,length_range] at ha hb
      rw [h.place_eq hi (by omega),h.place_eq hi (by omega)] at heq
      have := (rcell_inj C (by omega) (by omega) heq).2
      omega
    · rw [getElem_map,getElem_range]
  · intro c hc
    apply write_range_of_ne
    intro k hk heq
    exact hc k hk ((h.place_eq hi (by omega)).symm.trans heq)

theorem deliver (hrm : (s.message i).taken+n≤C.len) : Inv C (s.deliver C i n) := by
  obtain ⟨hnew,hoth⟩ := h.deliver_spec hi hrm
  have hm : ∀ j, (s.deliver C i n).message j = if j=i then { s.message i with taken := (s.message i).taken+n }
      else s.message j := fun j => update_apply ..
  have hcom := same (s := s) (i := i) (m := { s.message i with taken := (s.message i).taken+n })
    GatherMessage.complete rfl
  have hsn := same (s := s) (i := i) (m := { s.message i with taken := (s.message i).taken+n })
    GatherMessage.sent rfl
  have hinc := same (s := s) (i := i) (m := { s.message i with taken := (s.message i).taken+n })
    GatherMessage.incoming rfl
  constructor
  · exact (update_of_ne (Ne.symm (h.ne_root hi)) ..).trans h.root
  · intro j hj
    have hj := (hinc j).symm.trans hj
    rw [hm j]
    split
    · rename_i heq
      rw [heq,hi] at hj
      contradiction
    · exact h.idle j hj
  · intro j
    rw [hm j]
    split
    · exact hrm
    · exact h.taken j
  · intro j hj
    have hend := h.ended j ((hcom j).symm.trans hj)
    refine ⟨(hinc j).trans hend.1,?_⟩
    rw [hm j]
    split
    · rename_i heq
      rw [heq] at hend
      have hend : (s.message i).taken=C.len := hend.2
      change (s.message i).taken+n=C.len
      omega
    · exact hend.2
  · exact fun j hj => h.sent j ((hsn j).symm.trans hj)
  · exact fun hrt j hj => (hcom j).trans (h.kicked_complete hrt j hj)
  · have htal : tally (fun j => ((s.deliver C i n).message j).complete) = tally fun j => (s.message j).complete :=
      congrArg tally (funext hcom)
    rw [htal]
    exact h.rcvcount
  · intro j hj hd hlt
    have hj := (hinc j).symm.trans hj
    rw [hm j] at hlt ⊢
    change (if C.direct i then s.rcvpwq else (s.rcvpwq.1, s.rcvpwq.2+n)) = _
    by_cases heq : j=i
    · rw [if_pos heq] at hlt ⊢
      rw [heq] at hd ⊢
      have hlt : (s.message i).taken+n<C.len := hlt
      rw [hd,if_neg Bool.false_ne_true,h.rcvpwq i hi hd (by omega)]
    · rw [if_neg heq] at hlt ⊢
      have hj := h.rcvpwq j hj hd hlt
      split
      · exact hj
      · rename_i hdi
        by_cases hn : n=0
        · rw [hn,hj,add_zero]
        · have hi := h.rcvpwq i hi (eq_false_of_not_eq_true hdi) (by omega)
          exact absurd (Prod.mk.inj (hj.symm.trans hi)).1 heq
  · intro j q hq
    rw [hm j] at hq
    by_cases hin : j=i ∧ (s.message i).taken≤q
    · obtain ⟨rfl,hle⟩ := hin
      rw [if_pos rfl] at hq
      have hq : q<(s.message j).taken+n := hq
      have hk := hnew (q-(s.message j).taken) (by omega)
      rwa [Nat.add_sub_cancel' hle] at hk
    · have hqj : q<(s.message j).taken := by
        split at hq
        · rename_i heq
          rw [heq]
          exact not_le.mp fun hle => hin ⟨heq,hle⟩
        · exact hq
      refine (hoth _ ?_).trans (h.blocks j q hqj)
      intro k hk heq
      have heq := rcell_inj C (by omega) (hqj.trans_le (h.taken j)) heq
      exact hin ⟨heq.1.symm,by omega⟩
  · intro hk q hq
    refine (hoth _ ?_).trans (h.own hk q hq)
    intro k hkn heq
    exact h.ne_root hi (rcell_inj C (by omega) hq heq).1
  · intro c hc
    refine (hoth c ?_).trans (h.frame c hc)
    intro k hk
    exact hc i _ (by omega)
  · intro r
    refine (h.completions r).trans ?_
    have hr := hsn r
    change _ = if r=C.root then if s.kicked C.root then 1 else 0 else
      if ((s.setMessage i { s.message i with taken := (s.message i).taken+n }).message r).sent then 1 else 0
    rw [hr]

theorem cb_recvcomplete (htak : (s.message i).taken=C.len) (hnot : (s.message i).complete=false) :
    Inv C (s.cb_recvcomplete C i) := by
  have hkic : s.kicked C.root=false := by
    by_contra hk
    rw [h.kicked_complete (eq_true_of_not_eq_false hk) i (h.ne_root hi)] at hnot
    contradiction
  set m : GatherMessage := { s.message i with complete := true } with hm
  have hcom : ∀ j, ((s.setMessage i m).message j).complete=((s.message j).complete || decide (j=i)) := by
    intro j
    change (update s.message i m j).complete = _
    by_cases hj : j=i
    · rw [hj,update_self,decide_eq_true rfl,Bool.or_true]
    · rw [update_of_ne hj,decide_eq_false hj,Bool.or_false]
  have hrt : ((s.setMessage i m).message C.root) = ⟨false,0,false,false⟩ :=
    (update_of_ne (Ne.symm (h.ne_root hi)) ..).trans h.root
  have htal : tally (fun j => ((s.setMessage i m).message j).complete) =
      tally (fun j => (s.message j).complete)+1 := tally_set (f := fun j => (s.message j).complete) hnot hcom
  have hcou : s.rcvcount C.root+1 = tally fun j => ((s.setMessage i m).message j).complete := by
    rw [h.rcvcount,hkic,htal]
    rfl
  have hless : s.rcvcount C.root+1<N := by
    rw [hcou]
    refine (tally_lt_card (a := C.root) ?_).trans_eq (Fintype.card_fin N)
    rw [hrt]
  rw [Gathers.cb_recvcomplete,if_neg (by
    change ¬ N≤update s.rcvcount C.root (s.rcvcount C.root+1) C.root
    rw [update_self]
    omega)]
  have hsn := same (s := s) (i := i) (m := m) GatherMessage.sent rfl
  have hinc := same (s := s) (i := i) (m := m) GatherMessage.incoming rfl
  have hsm := same (s := s) (i := i) (m := m) GatherMessage.taken rfl
  constructor
  · exact hrt
  · exact fun j hj => (hsm j).trans (h.idle j ((hinc j).symm.trans hj))
  · exact fun j => (hsm j).trans_le (h.taken j)
  · intro j hj
    have hj := (hcom j).symm.trans hj
    refine ⟨(hinc j).trans ?_,(hsm j).trans ?_⟩
    · by_cases hji : j=i
      · exact hji ▸ hi
      · rw [decide_eq_false hji,Bool.or_false] at hj
        exact (h.ended j hj).1
    · by_cases hji : j=i
      · exact hji ▸ htak
      · rw [decide_eq_false hji,Bool.or_false] at hj
        exact (h.ended j hj).2
  · exact fun j hj => h.sent j ((hsn j).symm.trans hj)
  · intro hk
    exact absurd (hkic.symm.trans hk) Bool.false_ne_true
  · change update s.rcvcount C.root (s.rcvcount C.root+1) C.root = _+if s.kicked C.root then 1 else 0
    rw [update_self,hkic]
    exact hcou
  · intro j hj hd hlt
    have hq := h.rcvpwq j ((hinc j).symm.trans hj) hd ((hsm j).symm.trans_lt hlt)
    exact hq.trans (congrArg (Prod.mk j) (hsm j).symm)
  · exact fun j q hq => h.blocks j q (hq.trans_eq (hsm j))
  · exact h.own
  · exact h.frame
  · intro r
    refine (h.completions r).trans ?_
    have hr := hsn r
    change _ = if r=C.root then if s.kicked C.root then 1 else 0 else
      if ((s.setMessage i m).message r).sent then 1 else 0
    rw [hr]

end

theorem step {s' : Gathers N β} {e : GatherEvent N} (h : Inv C s) (hC : C.CopyInside) (ht : InTurn C s e)
    (hs : s.step C e = some s') : Inv C s' := by
  cases e with
  | kick r =>
    rw [Gathers.step] at hs
    split at hs
    · contradiction
    · rename_i hk
      obtain rfl := some.inj hs
      by_cases hr : r=C.root
      · subst hr
        exact h.kickRoot hC (eq_false_of_not_eq_true hk) (ht rfl)
      · rw [Gathers.kick,if_neg hr]
        exact h.kickOther hr
  | sendDone i =>
    obtain ⟨⟨hi,hk,hnot⟩,rfl⟩ := ite_some_none_eq_some.mp hs
    exact h.sendDone hi hk hnot
  | incoming i =>
    obtain ⟨⟨hi,-,hnot⟩,rfl⟩ := ite_some_none_eq_some.mp hs
    exact h.cb_incoming hi hnot ht
  | deliver i n =>
    obtain ⟨⟨hi,hrm,-⟩,rfl⟩ := ite_some_none_eq_some.mp hs
    exact h.deliver hi hrm
  | complete i =>
    obtain ⟨⟨hi,htak,hnot⟩,rfl⟩ := ite_some_none_eq_some.mp hs
    exact h.cb_recvcomplete hi htak hnot

theorem correct (h : Inv C s) : Correct C s := by
  constructor
  · intro r
    rw [h.completions]
    split
    · split
      · exact le_refl 1
      · exact zero_le 1
    · split
      · exact le_refl 1
      · exact zero_le 1
  · intro hc
    have hk : s.kicked C.root=true := by
      by_contra hk
      rw [h.completions,if_pos rfl,if_neg hk] at hc
      exact lt_irrefl 0 hc
    refine ⟨hk,h.kicked_complete hk,?_,h.frame⟩
    intro a q hq
    by_cases ha : a=C.root
    · rw [ha]
      exact h.own hk q hq
    · apply h.blocks
      rw [(h.ended a (h.kicked_complete hk a ha)).2]
      exact hq
  · intro hq r
    rw [h.completions]
    split
    · rw [if_pos (hq.1 C.root)]
    · rename_i hr
      rw [if_pos (hq.2 r hr).1]

end Inv

/-- A message is received, its first byte alone. -/
def receive {N : ℕ} (i : Fin N) : List (GatherEvent N) := [.incoming i, .deliver i 1, .deliver i 1, .complete i]

end Gathers

end PAMI.TspColl
