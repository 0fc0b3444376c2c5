import Mathlib
import PAMI.Executor.CreditRuns
import PAMI.Math.Placed
import PAMI.Math.RoundRobin
import PAMI.Util.BitVector

namespace PAMI.Executor

open PAMI.Math PAMI.Util Option Nat

/-- What a rank calls an alltoallv with; the types are contiguous. -/
structure AlltoallvCall (V : Type*) where
  sbuf : ℕ → V
  ssize : ℕ
  scounts : ℕ → ℕ
  sdisps : ℕ → ℕ
  rsize : ℕ
  rcounts : ℕ → ℕ
  rdisps : ℕ → ℕ

namespace AlltoallvCall

variable {V : Type*} (c : AlltoallvCall V) (index : ℕ)

def getSendLength : ℕ := c.scounts index * c.ssize

def getRecvLength : ℕ := c.rcounts index * c.rsize

def getSendDisp : ℕ := c.sdisps index * c.ssize

def getRecvDisp : ℕ := c.rdisps index * c.rsize

def source (q : ℕ) : V := c.sbuf (c.getSendDisp index + q)

def cell (q : ℕ) : ℕ := c.getRecvDisp index + q

end AlltoallvCall

/-- A multicast with the index of its destination. -/
inductive AlltoallvMulticast where
  | avail (parindex phase : ℕ)
  | data (parindex phase : ℕ)
  deriving DecidableEq, Repr

/-- The executor of a rank; `parindex` is none where it is -1. For the statements: the calls of the done callback, and whether
an assertion failed. -/
structure AlltoallvExec (w : ℕ) where
  curphase : ℤ
  lphase : ℤ
  parindex : Option ℕ
  rphase : BitVector w
  senddone : Bool
  recvdone : ℕ → Bool
  dones : ℕ
  failed : Bool

namespace AlltoallvExec

variable {w : ℕ} (N : ℕ)

def startphase : ℤ := 0

def maxParallel : ℕ := 20

def nphases : ℕ := N - 1 + N % 2

/-- The partner of a rank in a phase; it may have none when the number of ranks is odd. -/
def getPartnerIndex (phase tasks myindex : ℕ) : Option ℕ :=
  if tasks % 2 = 1 then
    let partner := (tasks + 2 * phase - myindex) % tasks
    if partner = myindex then none else some partner
  else
    let tasks := tasks - 1
    let partner := if myindex = tasks then phase else (tasks + 2 * phase - myindex) % tasks
    if partner = myindex then some tasks else some partner

/-- The constructor with `setSchedule`. -/
def new (w myindex : ℕ) : AlltoallvExec w where
  curphase := -1
  lphase := 0
  parindex := getPartnerIndex 0 N myindex
  rphase := .new w N
  senddone := false
  recvdone := fun _ => false
  dones := 0
  failed := false

/-- The slot of `_recvdone` of the current phase. -/
def slot (x : AlltoallvExec w) : ℕ := x.curphase.toNat % maxParallel

/-- The messages of `sendNext`; the index of no rank cannot be turned into an endpoint. -/
def sendPhase (x : AlltoallvExec w) : AlltoallvExec w × Option AlltoallvMulticast :=
  match x.parindex with
  | none => ({ x with failed := true }, none)
  | some i =>
    if x.lphase = x.curphase then
      ({ x with lphase := x.lphase + 1 }, some (.avail i x.curphase.toNat))
    else if x.rphase.get i = true then
      ({ x with rphase := x.rphase.clear i }, some (.data i x.curphase.toNat))
    else (x, none)

def sendNext (myindex : ℕ) (x : AlltoallvExec w) : AlltoallvExec w × Option AlltoallvMulticast :=
  if x.curphase = startphase + nphases N then ({ x with dones := x.dones + 1 }, none)
  else
    match x.parindex with
    | some _ => sendPhase x
    | none =>
      let y := { x with lphase := x.lphase + 1, curphase := x.curphase + 1 }
      if y.curphase = startphase + nphases N then ({ y with dones := y.dones + 1 }, none)
      else sendPhase { y with parindex := getPartnerIndex y.curphase.toNat N myindex }

def start (myindex : ℕ) (x : AlltoallvExec w) : AlltoallvExec w × Option AlltoallvMulticast :=
  sendNext N myindex { x with lphase := startphase, curphase := startphase }

def advance (myindex : ℕ) (x : AlltoallvExec w) : AlltoallvExec w × Option AlltoallvMulticast :=
  sendNext N myindex { x with
    recvdone := Function.update x.recvdone x.slot false
    senddone := false
    curphase := x.curphase + 1
    parindex := getPartnerIndex (x.curphase + 1).toNat N myindex }

def notifySendDone (myindex : ℕ) (x : AlltoallvExec w) : AlltoallvExec w × Option AlltoallvMulticast :=
  let y := { x with senddone := true }
  if y.recvdone y.slot = true then advance N myindex y else (y, none)

def notifyRecvDone (myindex : ℕ) (x : AlltoallvExec w) : AlltoallvExec w × Option AlltoallvMulticast :=
  let y := { x with recvdone := Function.update x.recvdone x.slot true }
  if y.senddone = true then advance N myindex y else (y, none)

/-- A message that a buffer is available is received, or sent. -/
def notifyAvailDone (myindex : ℕ) (x : AlltoallvExec w) : AlltoallvExec w × Option AlltoallvMulticast :=
  if startphase ≤ x.curphase then sendNext N myindex x else (x, none)

/-- `notifyRecv` of a message that a buffer is available, with the phase of its header. -/
def notifyRecvAvail (myindex src phase : ℕ) (x : AlltoallvExec w) : AlltoallvExec w :=
  { x with
    failed := x.failed || decide (getPartnerIndex (phase - 1) N myindex ≠ some src)
    rphase := x.rphase.set src }

/-- `notifyRecv` of data. -/
def notifyRecvData (src phase : ℕ) (x : AlltoallvExec w) : AlltoallvExec w :=
  { x with failed := x.failed || decide (x.parindex ≠ some src) || decide ((phase : ℤ) ≠ x.curphase) }

variable {N}

def partner (r : Fin N) (p : ℕ) : Option (Fin N) :=
  if p < nphases N then
    (getPartnerIndex p N r).bind fun i => if h : i < N then some ⟨i, h⟩ else none
  else none

/-- A message of a phase goes to the partner of the phase; that one to another rank counts as a failed assertion. -/
def route (r : Fin N) (o : AlltoallvExec w × Option AlltoallvMulticast) : AlltoallvExec w × Option Multicast :=
  match o.2 with
  | none => (o.1, none)
  | some (.avail i p) =>
    ({ o.1 with failed := o.1.failed || decide ((partner r p).map Fin.val ≠ some i) }, some (.avail p))
  | some (.data i p) =>
    ({ o.1 with failed := o.1.failed || decide ((partner r p).map Fin.val ≠ some i) }, some (.data p))

variable (N)

def program (w : ℕ) : CreditProgram (Fin N) (AlltoallvExec w) where
  entered := fun x => (x.curphase + 1).toNat
  availDone := true
  place := fun x => x.curphase.toNat
  start := fun r x => route r (start N r x)
  resume := fun _ _ => none
  notifySendDone := fun r x => route r (notifySendDone N r x)
  notifyRecvDone := fun r x => route r (notifyRecvDone N r x)
  notifyAvailRecvDone := fun r x => route r (notifyAvailDone N r x)
  notifyAvailSendDone := fun r x => route r (notifyAvailDone N r x)
  notifyRecvAvail := fun r a p x => notifyRecvAvail N r a (p + 1) x
  notifyRecvData := fun _ a p x => notifyRecvData a p x

section Partners

variable {N} {a b p q : ℕ}

theorem nphases_odd (hN : N%2=1) : nphases N = N := by
  rw [nphases]
  omega

theorem nphases_even (hN : N%2=0) : nphases N = N-1 := by
  rw [nphases]
  omega

theorem getPartnerIndex_odd (hN : N%2=1) (p i : ℕ) :
    getPartnerIndex p N i = if opponent N p i = i then none else some (opponent N p i) :=
  if_pos hN

theorem getPartnerIndex_even (hN : N%2=0) (p i : ℕ) : getPartnerIndex p N i =
    if i=N-1 then if p=i then some (N-1) else some p
    else if opponent (N-1) p i = i then some (N-1) else some (opponent (N-1) p i) := by
  rw [getPartnerIndex,if_neg (by omega)]
  by_cases hla : i=N-1
  · simp only [if_pos hla]
  · simp only [if_neg hla]
    rfl

def Partners (N p a b : ℕ) : Prop :=
  if N % 2 = 1 then opponent N p a = b ∧ a ≠ b
  else a = N - 1 ∧ b = p ∨ b = N - 1 ∧ a = p ∨ a < N - 1 ∧ b < N - 1 ∧ opponent (N - 1) p a = b ∧ a ≠ b

theorem odd_pred (ha : a<N) (hN : N%2=0) : Odd (N-1) := by
  rw [odd_iff]
  omega

theorem getPartnerIndex_eq_some (ha : a<N) (hp : p < nphases N) : getPartnerIndex p N a = some b ↔ Partners N p a b := by
  rw [Partners]
  obtain hodd | heven := mod_two_eq_zero_or_one N |>.symm
  · rw [if_pos hodd,getPartnerIndex_odd hodd]
    split
    case isTrue hse => exact iff_of_false nofun fun h => h.2 (hse.symm.trans h.1)
    case isFalse hse =>
      rw [Option.some.injEq,iff_self_and]
      rintro rfl
      exact Ne.symm hse
  · have hT := odd_pred ha heven
    rw [nphases_even heven] at hp
    rw [if_neg (by omega),getPartnerIndex_even heven]
    split
    case isTrue hla =>
      rw [if_neg (by omega),Option.some.injEq]
      omega
    case isFalse hla =>
      have hlt : a<N-1 := by omega
      have hse := opponent_self_iff hT hlt hp
      have hopp : opponent (N-1) p a<N-1 := opponent_lt hlt
      split
      case isTrue heq =>
        rw [Option.some.injEq]
        have := hse.mp heq
        omega
      case isFalse hne =>
        rw [Option.some.injEq]
        have : a≠p := fun heq => hne (hse.mpr heq)
        omega

theorem getPartnerIndex_eq_none (ha : a<N) (hp : p < nphases N) :
    getPartnerIndex p N a = none ↔ N%2=1 ∧ a=p := by
  obtain hodd | heven := mod_two_eq_zero_or_one N |>.symm
  · rw [nphases_odd hodd] at hp
    rw [getPartnerIndex_odd hodd,ite_eq_left_iff,and_iff_right hodd,← opponent_self_iff (odd_iff.mpr hodd) ha hp]
    exact ⟨fun h => by by_contra hne; exact absurd (h hne) nofun,fun h hne => absurd h hne⟩
  · rw [getPartnerIndex_even heven]
    refine iff_of_false ?_ fun h => by omega
    split_ifs <;> exact nofun

theorem Partners.lt (h : Partners N p a b) (ha : a<N) (hp : p < nphases N) : b<N := by
  rw [Partners] at h
  split at h
  case isTrue => exact h.1 ▸ opponent_lt ha
  case isFalse heven =>
    rw [nphases_even (by omega)] at hp
    omega

theorem Partners.symm (h : Partners N p a b) (ha : a<N) (hp : p < nphases N) : Partners N p b a := by
  have hb := h.lt ha hp
  rw [Partners] at h ⊢
  split at h
  case isTrue hodd =>
    rw [if_pos hodd]
    exact ⟨(opponent_comm ha hb).mp h.1,h.2.symm⟩
  case isFalse heven =>
    rw [if_neg heven]
    rcases h with h | h | ⟨ha,hb,h,hne⟩
    · exact .inr (.inl h)
    · exact .inl h
    · exact .inr (.inr ⟨hb,ha,(opponent_comm ha hb).mp h,hne.symm⟩)

theorem Partners.ne (h : Partners N p a b) (hp : p < nphases N) : a≠b := by
  rw [Partners] at h
  split at h
  case isTrue => exact h.2
  case isFalse =>
    rw [nphases] at hp
    omega

theorem Partners.unique (h : Partners N p a b) (h' : Partners N q a b) (ha : a<N) (hp : p < nphases N)
    (hq : q < nphases N) : p=q := by
  have hb := h.lt ha hp
  rw [Partners] at h h'
  split at h
  case isTrue hodd =>
    rw [if_pos hodd] at h'
    rw [nphases_odd hodd] at hp hq
    exact round_unique (odd_iff.mpr hodd) ha hb hp hq h.1 h'.1
  case isFalse heven =>
    rw [if_neg heven] at h'
    rw [nphases_even (by omega)] at hp hq
    have hT : Odd (N-1) := odd_pred ha (by omega)
    rcases h with h | h | ⟨ha,hb,h,-⟩
    · omega
    · omega
    · rcases h' with h' | h' | ⟨-,-,h',-⟩
      · omega
      · omega
      · exact round_unique hT ha hb hp hq h h'

theorem exists_partners (ha : a<N) (hb : b<N) (hne : a≠b) : ∃ p < nphases N, Partners N p a b := by
  obtain hodd | heven := mod_two_eq_zero_or_one N |>.symm
  · obtain ⟨p,hp,h⟩ := exists_round (odd_iff.mpr hodd) ha hb
    rw [nphases_odd hodd]
    refine ⟨p,hp,?_⟩
    rw [Partners,if_pos hodd]
    exact ⟨h,hne⟩
  · rw [nphases_even heven]
    simp only [Partners,if_neg (show ¬ N%2=1 by omega)]
    obtain hla | hlt := eq_or_lt_of_le (show a≤N-1 by omega)
    · exact ⟨b,by omega,.inl ⟨hla,rfl⟩⟩
    · obtain hla | hlt' := eq_or_lt_of_le (show b≤N-1 by omega)
      · exact ⟨a,hlt,.inr (.inl ⟨hla,rfl⟩)⟩
      · obtain ⟨p,hp,h⟩ := exists_round (odd_pred ha heven) hlt hlt'
        exact ⟨p,hp,.inr (.inr ⟨hlt,hlt',h,hne⟩)⟩

theorem partner_eq_some {r b : Fin N} : partner r p = some b ↔ p < nphases N ∧ Partners N p r b := by
  rw [partner]
  split
  case isTrue hp =>
    rw [and_iff_right hp,← getPartnerIndex_eq_some r.isLt hp,bind_eq_some_iff]
    constructor
    · rintro ⟨i,hi,h⟩
      obtain ⟨hlt,h⟩ := dite_none_right_eq_some.mp h
      rw [hi,← some.inj h]
    · intro h
      exact ⟨b,h,by rw [dif_pos b.isLt]⟩
  case isFalse hp => exact iff_of_false (fun h => by cases h) fun h => hp h.1

def partners (N : ℕ) : RoundTables (Fin N) where
  rounds := nphases N
  dest := partner
  source := partner
  matched := fun a b p => by
    rw [partner_eq_some, partner_eq_some]
    exact and_congr_right fun hp => ⟨fun h => h.symm a.isLt hp, fun h => h.symm b.isLt hp⟩
  bounded := fun _ _ _ h => (partner_eq_some.mp h).1

end Partners

section Pairing

/-- A value as an `int`; there is none when it does not fit. -/
def toInt (n : ℕ) : Option ℕ := if n < 2 ^ 31 then some n else none

/-- `getPartnerIndex` with its `int`s; there is none when they overflow. -/
def getPartnerIndexInt (uphase utasks umyindex : ℕ) : Option (Option ℕ) := do
  let phase ← toInt uphase
  let tasks ← toInt utasks
  let myindex ← toInt umyindex
  if tasks % 2 = 1 then
    let sum ← toInt (tasks + 2 * phase)
    let partner := (sum - myindex) % tasks
    some (if partner = myindex then none else some partner)
  else
    let tasks := tasks - 1
    let partner ← if myindex = tasks then some phase
      else (toInt (tasks + 2 * phase)).map fun sum => (sum - myindex) % tasks
    some (if partner = myindex then some tasks else some partner)

/-- In each phase the ranks are paired, and any two ranks are paired in one phase. -/
structure RoundRobin (N : ℕ) : Prop where
  computed : ∀ p < nphases N, ∀ a < N, (getPartnerIndexInt p N a).isSome
  paired : ∀ p < nphases N, ∀ a < N, ∀ b, getPartnerIndexInt p N a = some (some b) →
    b < N ∧ b ≠ a ∧ getPartnerIndexInt p N b = some (some a)
  meets : ∀ a < N, ∀ b < N, a ≠ b → ∃! p, p < nphases N ∧ getPartnerIndexInt p N a = some (some b)

variable {N p a b : ℕ}

theorem getPartnerIndexInt_of_lt (hN : N<2^31) (hsum : nphases N+2*p < 2^31) (ha : a<N) :
    getPartnerIndexInt p N a = some (getPartnerIndex p N a) := by
  rw [nphases] at hsum
  simp only [getPartnerIndexInt,getPartnerIndex,toInt,if_pos (show p<2^31 by omega),
    if_pos hN,if_pos (show a<2^31 by omega),bind_eq_bind,bind_some]
  split
  case isTrue hodd => rw [if_pos (by omega),bind_some]
  case isFalse =>
    rw [if_pos (show N-1+2*p<2^31 by omega),map_some]
    split <;> rfl

theorem getPartnerIndexInt_eq (hN : 3*nphases N ≤ 2^31+1) (hp : p < nphases N) (ha : a<N) :
    getPartnerIndexInt p N a = some (getPartnerIndex p N a) := by
  have hlt : N<2^31 := by
    rw [nphases] at hN
    omega
  exact getPartnerIndexInt_of_lt hlt (by omega) ha

/-- No rank computes a partner with an overflow: behind the last phase it asks for one once more. -/
theorem getPartnerIndexInt_fits (hN : 3*nphases N < 2^31) (hp : p ≤ nphases N) (ha : a<N) :
    getPartnerIndexInt p N a = some (getPartnerIndex p N a) := by
  have hlt : N<2^31 := by
    rw [nphases] at hN
    omega
  exact getPartnerIndexInt_of_lt hlt (by omega) ha

theorem getPartnerIndexInt_last (hN : 2^31+1 < 3*nphases N) : getPartnerIndexInt (nphases N-1) N 0 = none := by
  by_cases hlar : N<2^31
  · rw [nphases] at hN ⊢
    simp only [getPartnerIndexInt,toInt,if_pos hlar,if_pos (show N-1+N%2-1<2^31 by omega),
      if_pos (show 0<2^31 by decide),bind_eq_bind,bind_some]
    split
    case isTrue hodd => rw [if_neg (by omega),bind_none]
    case isFalse => rw [if_neg (by omega),if_neg (by omega),map_none,bind_none]
  · simp only [getPartnerIndexInt,toInt,if_neg hlar,bind_eq_bind,bind_none,bind_fun_none]

theorem roundRobin_iff (hN : 1 ≤ N) : RoundRobin N ↔ 3 * nphases N ≤ 2 ^ 31 + 1 := by
  constructor
  · intro h
    by_contra hlar
    have hnn := getPartnerIndexInt_last (Nat.lt_of_not_le hlar)
    have hla := h.computed (nphases N - 1) (by omega) 0 hN
    rw [hnn] at hla
    cases hla
  · intro h
    have hiff : ∀ {p a b}, p<nphases N → a<N → (getPartnerIndexInt p N a = some (some b) ↔ Partners N p a b) := by
      intro p a b hp ha
      rw [getPartnerIndexInt_eq h hp ha,Option.some.injEq,getPartnerIndex_eq_some ha hp]
    refine ⟨fun p hp a ha => ?_,fun p hp a ha b hb => ?_,fun a ha b hb hne => ?_⟩
    · rw [getPartnerIndexInt_eq h hp ha,isSome_some]
    · have hpair := (hiff hp ha).mp hb
      have hlt := hpair.lt ha hp
      exact ⟨hlt,(hpair.ne hp).symm,(hiff hp hlt).mpr (hpair.symm ha hp)⟩
    · obtain ⟨p,hp,hpair⟩ := exists_partners ha hb hne
      refine ⟨p,⟨hp,(hiff hp ha).mpr hpair⟩,fun q hq => ?_⟩
      exact ((hiff hq.1 ha).mp hq.2).unique hpair ha hq.1 hp

theorem roundRobin_iff_five : RoundRobin 5 := (roundRobin_iff (by decide)).mpr (by decide)

/-- The sum of the last phase does not fit. -/
theorem not_roundRobin : ¬ RoundRobin 715827885 := fun h => by
  have hla := h.computed 715827884 (by decide) 0 (by decide)
  rw [show getPartnerIndexInt 715827884 715827885 0=none by decide] at hla
  cases hla

end Pairing

/-- The copy of the own block at the start, and the work queues of the messages, by the partner of the phase. -/
def client {V : Type*} {N : ℕ} (call : Fin N → AlltoallvCall V) : CreditClient (Fin N) (ℕ → V) (List V) where
  start := fun r rbuf => write ((call r).cell r) ((List.range ((call r).getRecvLength r)).map ((call r).source r)) rbuf
  payload := fun r p _ => (partner r p).elim [] fun b =>
    (List.range ((call r).getSendLength b)).map ((call r).source b)
  deliver := fun r p m rbuf => (partner r p).elim rbuf fun b => write ((call r).cell b) m rbuf

end AlltoallvExec

end PAMI.Executor
