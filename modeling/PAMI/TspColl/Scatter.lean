import PAMI.TspColl.Allgather
import PAMI.TspColl.Alltoall

namespace PAMI.TspColl

open PAMI.Math Function Option

/-- What the ranks call a scatter or a gather with. The fields are those of an alltoall; the root of a scatter uses all
blocks of its send buffer, that of a gather all blocks of its receive buffer. The cells of the root's own block are
different ones. -/
structure RootedCalls (N : ℕ) (β : Type*) where
  root : Fin N
  call : Fin N → A2aCall β
  len_eq : ∀ a b, (call a).len = (call b).len
  distinct : Set.InjOn (call root).rtype.cell (Set.Iio (call root).len)

def RootedCalls.len {N : ℕ} {β : Type*} (C : RootedCalls N β) : ℕ := (C.call C.root).len

/-- A message: what was taken from the send queue, how much of it was delivered, and whether it was sent and
received. -/
structure Transfer (β : Type*) where
  data : List β
  taken : ℕ
  sent : Bool
  complete : Bool

/-- The ranks of a scatter after their resets, and the messages of the root. `sndpwq` is what the root's only send queue
has given away; `completions` is how often a rank's callback was called. -/
structure Scatters (N : ℕ) (β : Type*) where
  kicked : Fin N → Bool
  returned : Fin N → Bool
  rcvcount : Fin N → ℕ
  completions : Fin N → ℕ
  rbuf : Fin N → ℕ → β
  sndpwq : ℕ
  message : Fin N → Transfer β

inductive ScatterEvent (N : ℕ)
  | kick (r : Fin N)
  | endKick (r : Fin N)
  | send (i : Fin N) (n : ℕ)
  | sendDone (i : Fin N)
  | deliver (i : Fin N) (n : ℕ)
  | complete (i : Fin N)

namespace Scatters

variable {N : ℕ} {β : Type*}

def reset (C : RootedCalls N β) : Scatters N β where
  kicked := fun _ => false
  returned := fun _ => false
  rcvcount := fun _ => 0
  completions := fun _ => 0
  rbuf := fun r => (C.call r).rbuf
  sndpwq := 0
  message := fun _ => ⟨[], 0, false, false⟩

variable (C : RootedCalls N β) (contiguous : Bool) (s : Scatters N β)

def setMessage (i : Fin N) (m : Transfer β) : Scatters N β := { s with message := update s.message i m }

/-- `_cb_complete`. -/
def callback (r : Fin N) : Scatters N β :=
  { s with completions := update s.completions r (s.completions r + 1) }

/-- `kick` up to its callback; the sends of the root take their bytes from then on. -/
def kick (r : Fin N) : Scatters N β :=
  let s := { s with kicked := update s.kicked r true }
  if r = C.root then
    { s with
      rbuf := update s.rbuf r (write (C.call r).rtype.cell ((C.call r).sendBlock r) (s.rbuf r))
      rcvcount := update s.rcvcount r (s.rcvcount r + 1) }
  else s

/-- The next bytes that `sendPWQ` takes for a destination. A contiguous queue shows all of its bytes to every send, and
is not consumed; the pieces of another one are. -/
def piece (i : Fin N) (n : ℕ) : List β := (List.range n).map fun q =>
    (C.call C.root).source 0 ((if contiguous then (s.message i).data.length else s.sndpwq) + q)

def send (i : Fin N) (n : ℕ) : Scatters N β :=
  { s.setMessage i { s.message i with data := (s.message i).data ++ s.piece C contiguous i n } with
    sndpwq := if contiguous then s.sndpwq else s.sndpwq + n }

/-- Bytes of a message go to the receive queue. -/
def deliver (i : Fin N) (n : ℕ) : Scatters N β :=
  let m := s.message i
  { s.setMessage i { m with taken := m.taken + n } with
    rbuf := update s.rbuf i
      (write (fun k => (C.call i).rtype.cell (m.taken + k)) ((m.data.drop m.taken).take n) (s.rbuf i)) }

def cb_senddone (i : Fin N) : Scatters N β := ({ s.setMessage i { s.message i with sent := true } with
    rcvcount := update s.rcvcount C.root 1 }).callback C.root

def cb_recvcomplete (i : Fin N) : Scatters N β :=
  let s := { s.setMessage i { s.message i with complete := true } with
    rcvcount := update s.rcvcount i (s.rcvcount i + 1) }
  if 1 ≤ s.rcvcount i then s.callback i else s

def Posted (i : Fin N) : Prop := i ≠ C.root ∧ s.kicked C.root = true

instance (i : Fin N) : Decidable (Posted C s i) := inferInstanceAs (Decidable (_ ∧ _))

def step : ScatterEvent N → Option (Scatters N β)
  | .kick r => if s.kicked r then none else some (s.kick C r)
  | .endKick r =>
    if s.kicked r = true ∧ s.returned r = false then
      some ({ s with returned := update s.returned r true }.callback r)
    else none
  | .send i n =>
    if Posted C s i ∧ (s.message i).data.length + n ≤ C.len ∧ (contiguous = true ∨ s.sndpwq + n ≤ C.len) then
      some (s.send C contiguous i n)
    else none
  | .sendDone i =>
    if Posted C s i ∧ (s.message i).data.length = C.len ∧ (s.message i).sent = false then some (s.cb_senddone C i)
    else none
  | .deliver i n =>
    if Posted C s i ∧ (s.message i).taken + n ≤ (s.message i).data.length then some (s.deliver C i n) else none
  | .complete i =>
    if Posted C s i ∧ (s.message i).taken = (C.call i).len ∧ (s.message i).complete = false then
      some (s.cb_recvcomplete i)
    else none

def Done (r : Fin N) : Prop :=
  if r = C.root then s.kicked r = true ∧ ∀ i, i ≠ C.root → (s.message i).sent = true
  else (s.message r).complete = true

/-- All kicks have returned, and all messages were sent and received. -/
def Quiet : Prop :=
  (∀ r, s.returned r = true) ∧ ∀ i, i ≠ C.root → (s.message i).sent = true ∧ (s.message i).complete = true

/-- The callback of each rank is called once, and not before the rank is done and its block is there. -/
structure Correct : Prop where
  once : ∀ r, s.completions r ≤ 1
  done : ∀ r, 0 < s.completions r →
    Done C s r ∧ ∀ q < C.len, s.rbuf r ((C.call r).rtype.cell q) = (C.call C.root).source r q
  called : Quiet C s → ∀ r, s.completions r = 1

variable {C contiguous s}

/-- The calls of a rank's callback: one at the end of its kick, and one more for its block or, at the root, for each
send. -/
def callbacks (C : RootedCalls N β) (s : Scatters N β) (r : Fin N) : ℕ :=
  (if s.returned r then 1 else 0) +
    if r = C.root then tally fun i => (s.message i).sent else if (s.message r).complete then 1 else 0

structure Inv (C : RootedCalls N β) (s : Scatters N β) : Prop where
  returned : ∀ r, s.returned r = true → s.kicked r = true
  sent : (s.message C.root).sent = false
  completions : ∀ r, s.completions r = callbacks C s r
  own : s.kicked C.root = true → ∀ q < C.len,
    s.rbuf C.root ((C.call C.root).rtype.cell q) = (C.call C.root).source C.root q

namespace Inv

variable {r i : Fin N} {n : ℕ}

theorem reset (C : RootedCalls N β) : Inv C (reset C) where
  returned _ h := absurd h Bool.false_ne_true
  sent := rfl
  completions r := by
    have htal : tally (fun i => ((Scatters.reset C).message i).sent)=0 := tally_eq_zero fun _ => rfl
    have hnn : (if ((Scatters.reset C).message r).complete=true then 1 else 0)=0 := rfl
    rw [callbacks,htal,hnn,ite_self]
    rfl
  own h := absurd h Bool.false_ne_true

section

variable (h : Inv C s)
include h

theorem kick : Inv C (s.kick C r) := by
  have hkic : ∀ k, s.returned k=true → update s.kicked r true k=true := by
    intro k hk
    by_cases hkr : k=r
    · rw [hkr,update_self]
    · rw [update_of_ne hkr]
      exact h.returned k hk
  rw [Scatters.kick]
  split
  case isTrue heq =>
    refine ⟨hkic,h.sent,h.completions,?_⟩
    intro _ q hq
    subst heq
    change update s.rbuf C.root _ C.root _ = _
    rw [update_self]
    exact write_range C.distinct hq
  case isFalse hne =>
    refine ⟨hkic,h.sent,h.completions,?_⟩
    intro hk
    change update s.kicked r true C.root=true at hk
    rw [update_of_ne (Ne.symm hne)] at hk
    exact h.own hk

theorem endKick (hr : s.kicked r = true) (hnot : s.returned r = false) :
    Inv C ({ s with returned := update s.returned r true }.callback r) := by
  constructor
  · intro k hk
    change update s.returned r true k=true at hk
    by_cases hkr : k=r
    · exact hkr ▸ hr
    · rw [update_of_ne hkr] at hk
      exact h.returned k hk
  · exact h.sent
  · intro k
    have hold := h.completions k
    rw [callbacks] at hold ⊢
    change update s.completions r (s.completions r+1) k =
      (if update s.returned r true k then 1 else 0)+_
    by_cases hkr : k=r
    · subst hkr
      rw [hnot] at hold
      rw [update_self,update_self,hold,if_neg Bool.false_ne_true,if_pos rfl,zero_add,add_comm]
      rfl
    · rw [update_of_ne hkr,update_of_ne hkr,hold]
      rfl
  · exact h.own

theorem setMessage {m : Transfer β} (hsn : m.sent=(s.message i).sent)
    (hcom : m.complete=(s.message i).complete) : Inv C (s.setMessage i m) := by
  have hsm : ∀ f : Transfer β → Bool, f m = f (s.message i) →
      (fun j => f ((s.setMessage i m).message j)) = fun j => f (s.message j) := by
    intro f hf
    funext j
    change f (update s.message i m j) = f (s.message j)
    by_cases hj : j=i
    · rw [hj,update_self]
      exact hf
    · rw [update_of_ne hj]
  refine ⟨h.returned,?_,?_,h.own⟩
  · exact (congrFun (hsm Transfer.sent hsn) C.root).trans h.sent
  · intro r
    refine (h.completions r).trans ?_
    rw [callbacks,callbacks,hsm Transfer.sent hsn,congrFun (hsm Transfer.complete hcom) r]
    rfl

theorem send : Inv C (s.send C contiguous i n) := by
  have hm : Inv C (s.setMessage i { s.message i with data := (s.message i).data ++ s.piece C contiguous i n }) :=
    h.setMessage rfl rfl
  exact ⟨hm.returned,hm.sent,hm.completions,hm.own⟩

theorem sendDone (hi : i≠C.root) (hnot : (s.message i).sent=false) : Inv C (s.cb_senddone C i) := by
  refine ⟨h.returned,?_,?_,h.own⟩
  · change (update s.message i _ C.root).sent=false
    rw [update_of_ne (Ne.symm hi)]
    exact h.sent
  · intro r
    have hold := h.completions r
    rw [callbacks] at hold ⊢
    change update s.completions C.root (s.completions C.root+1) r=(if s.returned r then 1 else 0)+_
    by_cases hr : r=C.root
    · have htal : tally (fun j => ((s.cb_senddone C i).message j).sent) =
          tally (fun j => (s.message j).sent)+1 := by
        apply tally_set (f := fun j => (s.message j).sent) hnot
        intro j
        change (update s.message i { s.message i with sent := true } j).sent = _
        by_cases hj : j=i
        · rw [hj,update_self,decide_eq_true rfl,Bool.or_true]
        · rw [update_of_ne hj,decide_eq_false hj,Bool.or_false]
      rw [if_pos hr] at hold ⊢
      rw [htal,hr,update_self,← hr,hold,add_assoc]
    · rw [if_neg hr] at hold ⊢
      rw [update_of_ne hr,hold]
      change _ = _+if (update s.message i { s.message i with sent := true } r).complete then 1 else 0
      by_cases hj : r=i
      · rw [hj,update_self]
      · rw [update_of_ne hj]

theorem deliver (hi : i≠C.root) : Inv C (s.deliver C i n) := by
  have hm : Inv C (s.setMessage i { s.message i with taken := (s.message i).taken+n }) := h.setMessage rfl rfl
  refine ⟨hm.returned,hm.sent,hm.completions,?_⟩
  intro hk q hq
  change update s.rbuf i _ C.root _ = _
  rw [update_of_ne (Ne.symm hi)]
  exact h.own hk q hq

theorem recvComplete (hi : i≠C.root) (hnot : (s.message i).complete=false) :
    Inv C (s.cb_recvcomplete i) := by
  have hcou : 1≤update s.rcvcount i (s.rcvcount i+1) i := by
    rw [update_self]
    exact Nat.le_add_left 1 _
  rw [cb_recvcomplete,if_pos hcou]
  refine ⟨h.returned,?_,?_,h.own⟩
  · change (update s.message i _ C.root).sent=false
    rw [update_of_ne (Ne.symm hi)]
    exact h.sent
  · intro r
    have hold := h.completions r
    rw [callbacks] at hold ⊢
    have hsn : (fun j => (update s.message i { s.message i with complete := true } j).sent) =
        fun j => (s.message j).sent := by
      funext j
      by_cases hj : j=i
      · rw [hj,update_self]
      · rw [update_of_ne hj]
    change update s.completions i (s.completions i+1) r = (if s.returned r then 1 else 0) +
      if r=C.root then tally fun j => (update s.message i { s.message i with complete := true } j).sent
      else if (update s.message i { s.message i with complete := true } r).complete then 1 else 0
    rw [hsn]
    by_cases hr : r=i
    · rw [hr,if_neg hi,hnot] at hold
      rw [hr,if_neg hi,update_self,update_self,hold]
      rfl
    · rw [update_of_ne hr,update_of_ne hr,hold]

theorem step {s' : Scatters N β} {e : ScatterEvent N} (hs : s.step C contiguous e = some s') : Inv C s' := by
  cases e with
  | kick r =>
    rw [Scatters.step] at hs
    split at hs
    · contradiction
    · obtain rfl := some.inj hs
      exact h.kick
  | endKick r =>
    obtain ⟨⟨hr,hnot⟩,rfl⟩ := ite_some_none_eq_some.mp hs
    exact h.endKick hr hnot
  | send i n =>
    obtain ⟨-,rfl⟩ := ite_some_none_eq_some.mp hs
    exact h.send
  | sendDone i =>
    obtain ⟨⟨hi,-,hnot⟩,rfl⟩ := ite_some_none_eq_some.mp hs
    exact h.sendDone hi.1 hnot
  | deliver i n =>
    obtain ⟨⟨hi,-⟩,rfl⟩ := ite_some_none_eq_some.mp hs
    exact h.deliver hi.1
  | complete i =>
    obtain ⟨⟨hi,-,hnot⟩,rfl⟩ := ite_some_none_eq_some.mp hs
    exact h.recvComplete hi.1 hnot

end

end Inv

theorem early_callback (C : RootedCalls N β) (contiguous : Bool) {r : Fin N} (hr : r≠C.root) :
    ∃ s, Run (step C contiguous) (fun _ _ => True) (reset C) s ∧ s.completions r = 1 ∧
      (s.message r).complete=false := by
  have hkick : step C contiguous (reset C) (.kick r) = some ((reset C).kick C r) := rfl
  have hkic : (reset C).kick C r = { reset C with kicked := update (reset C).kicked r true } := by
    rw [Scatters.kick,if_neg hr]
  have hend : step C contiguous ((reset C).kick C r) (.endKick r) = some ({ (reset C).kick C r with
        returned := update ((reset C).kick C r).returned r true }.callback r) := by
    rw [hkic]
    apply if_pos
    exact ⟨update_self ..,rfl⟩
  refine ⟨_,(Run.refl.step trivial hkick).step trivial hend,?_,?_⟩
  · rw [hkic]
    exact update_self ..
  · rw [hkic]
    rfl

/-- All runs are as they should be if and only if there is one rank. -/
theorem scatter_iff (C : RootedCalls N β) (contiguous : Bool) :
    (∀ s, Run (step C contiguous) (fun _ _ => True) (reset C) s → Correct C s) ↔ N = 1 := by
  constructor
  · intro h
    by_contra hN
    have htwo : 2≤N := by
      have := C.root.pos
      omega
    have : Nontrivial (Fin N) := Fin.nontrivial_iff_two_le.mpr htwo
    obtain ⟨r,hr⟩ := exists_ne C.root
    obtain ⟨s,hrun,hone,hnot⟩ := early_callback C contiguous hr
    have hdn := ((h s hrun).done r (by rw [hone]; exact Nat.one_pos)).1
    rw [Done,if_neg hr,hnot] at hdn
    contradiction
  · rintro rfl s h
    have hinv : Inv C s := h.invariant (Inv.reset C) fun _ _ _ hs _ he => hs.step he
    have hrt : ∀ r, r=C.root := fun r => Subsingleton.elim r C.root
    have hcou : ∀ r, s.completions r = if s.returned r then 1 else 0 := by
      intro r
      have htal : tally (fun i => (s.message i).sent)=0 := by
        apply tally_eq_zero
        intro i
        rw [hrt i]
        exact hinv.sent
      rw [hinv.completions r,callbacks,if_pos (hrt r),htal,Nat.add_zero]
    constructor
    · intro r
      rw [hcou r]
      split
      · exact Nat.le_refl 1
      · exact Nat.zero_le 1
    · intro r hr
      rw [hcou r] at hr
      have hret : s.returned r=true := by
        by_contra hne
        rw [if_neg hne] at hr
        exact Nat.lt_irrefl 0 hr
      have hk := hinv.returned r hret
      rw [hrt r] at hk ⊢
      refine ⟨?_,hinv.own hk⟩
      rw [Done,if_pos rfl]
      exact ⟨hk,fun i hi => absurd (hrt i) hi⟩
    · intro hq r
      rw [hcou r,if_pos (hq.1 r)]

/-- The first of two ranks scatters the bytes 5 and 7. -/
def twoBlocks : RootedCalls 2 ℕ where
  root := ⟨0, Nat.zero_lt_two⟩
  call := fun _ => ⟨fun q => 5 + 2 * q, fun _ => 0, 1, 1, id, Allgather.bytes, 1⟩
  len_eq := fun _ _ => rfl
  distinct := Allgather.bytes_injective.injOn

/-- The kicks of both ranks, and then a byte from the root to the other one. -/
def scattering {N : ℕ} (a b : Fin N) : List (ScatterEvent N) :=
  [.kick a, .kick b, .endKick a, .endKick b, .send b 1, .sendDone b, .deliver b 1, .complete b]

/-- The other rank gets the first block, and both call their callback twice. -/
theorem wrong_block : ∃ s : Scatters 2 ℕ, Run (step twoBlocks true) (fun _ _ => True) (reset twoBlocks) s ∧
    Quiet twoBlocks s ∧ (∀ r, s.completions r = 2) ∧ s.rbuf ⟨1, Nat.one_lt_two⟩ 0 = 5 ∧
    (twoBlocks.call twoBlocks.root).source 1 0 = 7 ∧ ¬ Correct twoBlocks s := by
  have heve : (execEvents (step twoBlocks true) (scattering ⟨0,Nat.zero_lt_two⟩ ⟨1,Nat.one_lt_two⟩)
      (reset twoBlocks)).map (fun s => (decide (∀ r, s.returned r=true),
        decide (∀ i, i≠twoBlocks.root → (s.message i).sent=true ∧ (s.message i).complete=true),
        decide (∀ r, s.completions r=2), s.rbuf ⟨1,Nat.one_lt_two⟩ 0)) = some (true, true, true, 5) := by
    decide
  obtain ⟨s,hs,hend⟩ := map_eq_some_iff.mp heve
  simp only [Prod.mk.injEq,decide_eq_true_eq] at hend
  obtain ⟨hrtr,hmss,htwi,hbyte⟩ := hend
  refine ⟨s,Run.refl.execEvents _ (fun _ _ _ => trivial) hs,⟨hrtr,hmss⟩,htwi,hbyte,rfl,?_⟩
  intro hcor
  have := hcor.once twoBlocks.root
  rw [htwi] at this
  omega

end Scatters

end PAMI.TspColl
