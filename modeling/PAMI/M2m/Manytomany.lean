import Mathlib.Data.List.Nodup
import Mathlib.Data.List.Range
import Mathlib.Data.Set.Function
import Mathlib.Order.Interval.Set.Basic
import PAMI.Math.Runs

namespace PAMI.M2m

open PAMI.Math List Option

/-- The counters of a `p2p_manytomany_send_statedata_t`. -/
structure SendState where
  doneCountDown : ℕ
  pacingCountDown : ℕ
  pacingWindow : ℕ
  postInProgress : Bool
  nextPostPending : Bool
  nextDestIndex : ℕ
  deriving DecidableEq, Repr

/-- Where the code that posts is: outside, or in a loop, before or inside of the send with a number, of the
sends of a window. -/
inductive Place where
  | outside
  | post (i ndestinations : ℕ)
  | postNext (i ndestinations : ℕ)
  deriving DecidableEq, Repr

/-- A manytomany at its origin. To whom it has sent, which sends are not completed, how often the done
callback ran, and whether the state object is given back, and was used after that, is for the statements. -/
structure Manytomany where
  state : SendState
  place : Place
  sent : List ℕ
  outstanding : List ℕ
  done : ℕ
  recycled : Bool
  used : Bool
  deriving DecidableEq, Repr

/-- The loop sends to the next participant; the loop is over; or a send completes, in the call of a send or
later. -/
inductive ManytomanyEvent where
  | send
  | loopEnd
  | complete (participant : ℕ)
  deriving DecidableEq, Repr

namespace SendState

def ndestinations (s : SendState) : ℕ :=
  if s.doneCountDown > s.pacingCountDown then s.pacingCountDown else s.doneCountDown

end SendState

namespace Manytomany

/-- `postManytomany_impl`, up to its loop. -/
def postManytomany (window participants : ℕ) : Manytomany :=
  let state : SendState := ⟨participants, window, window, true, false, 0⟩
  ⟨state, .post 0 state.ndestinations, [], [], 0, false, false⟩

def access (m : Manytomany) : Manytomany := { m with used := m.used || m.recycled }

/-- The beginning of a round of `postNextManytomany_impl`. -/
def beginNext (m : Manytomany) : Manytomany :=
  { m with
    place := .postNext 0 m.state.ndestinations
    state := { m.state with postInProgress := true, nextPostPending := false } }

def sendM2mDone (m : Manytomany) : Manytomany :=
  let m := { m.access with state := { m.state with doneCountDown := m.state.doneCountDown - 1 } }
  if m.state.doneCountDown = 0 then { m with done := m.done + 1, recycled := true }
  else
    let m := { m with state := { m.state with pacingCountDown := m.state.pacingCountDown - 1 } }
    if m.state.pacingCountDown = 0 then
      let m := { m with state := { m.state with
        pacingCountDown := m.state.pacingWindow
        nextDestIndex := m.state.nextDestIndex + m.state.pacingWindow } }
      if m.state.postInProgress then { m with state := { m.state with nextPostPending := true } }
      else m.beginNext
    else m

def simple (m : Manytomany) (place : Place) (participant : ℕ) : Manytomany :=
  { m.access with
    place := place
    sent := m.sent ++ [participant]
    outstanding := m.outstanding ++ [participant] }

variable (index2PermutedIndex : ℕ → ℕ)

def send (m : Manytomany) : Option Manytomany :=
  match m.place with
  | .outside => none
  | .post i n => if i < n then some (m.simple (.post (i + 1) n) (index2PermutedIndex i)) else none
  | .postNext i n =>
    if i < n then
      some (m.simple (.postNext (i + 1) n) (index2PermutedIndex (i + m.state.nextDestIndex)))
    else none

/-- What follows a loop. The first one leads to `postNextManytomany_impl` when a window is done already. -/
def loopEnd (m : Manytomany) : Option Manytomany :=
  let next : Manytomany :=
    if m.state.nextPostPending then m.access.beginNext
    else { m.access with place := .outside, state := { m.state with postInProgress := false } }
  match m.place with
  | .outside => none
  | .post i n => if i < n then none else some next
  | .postNext i n => if i < n then none else some next

def step (m : Manytomany) : ManytomanyEvent → Option Manytomany
  | .send => m.send index2PermutedIndex
  | .loopEnd => m.loopEnd
  | .complete p =>
    if p ∈ m.outstanding then some ({ m with outstanding := m.outstanding.erase p }).sendM2mDone else none

def left (participants : ℕ) (m : Manytomany) : ℕ := 3 * (participants - m.sent.length) + 2 * m.outstanding.length +
    (if m.place = .outside then 0 else 1) + m.state.nextPostPending.toNat

/-- What a state says: nobody got two messages, the window is kept, the done callback ran at most once, when all was sent and
completed, and until then there is something to do, and ever less of it. -/
structure Paced (window participants : ℕ) (m : Manytomany) : Prop where
  sent : m.sent.Nodup ∧ ∀ p ∈ m.sent, p < participants
  outstanding : m.outstanding.length ≤ window
  once : m.done ≤ 1
  done : m.done = 1 → m.sent.Perm (List.range participants) ∧ m.outstanding = []
  unused : m.used = false
  progress : m.done = 0 → ∃ e m', m.step index2PermutedIndex e = some m'
  decreases : ∀ e m', m.step index2PermutedIndex e = some m' → m'.left participants < m.left participants

/-- The last send does not complete inside of a loop that posts. -/
def Clean (m : Manytomany) : ManytomanyEvent → Prop
  | .complete _ => m.state.doneCountDown = 1 → m.place = .outside
  | _ => True

instance (m : Manytomany) (e : ManytomanyEvent) : Decidable (m.Clean e) :=
  match e with
  | .send => inferInstanceAs (Decidable True)
  | .loopEnd => inferInstanceAs (Decidable True)
  | .complete _ => inferInstanceAs (Decidable (m.state.doneCountDown = 1 → m.place = .outside))

variable {perm : ℕ → ℕ} {window participants : ℕ} {m m' : Manytomany} {b i p : ℕ}
  {e : ManytomanyEvent}

/-- The place in a window: before, or after, the send with a number. -/
inductive At (m : Manytomany) (b i n : ℕ) : Prop where
  | outside (hpla : m.place = .outside) (hps : m.state.postInProgress = false) (hall : i = n)
  | post (hpla : m.place = .post i n) (hps : m.state.postInProgress = true) (hfir : b = 0)
  | postNext (hpla : m.place = .postNext i n) (hps : m.state.postInProgress = true)

/-- The window after the current one: it is still to come, or it is pending since all sends of the current
one are completed. -/
inductive Paces (window : ℕ) (m : Manytomany) (b i participants : ℕ) : Prop where
  | current (hpen : m.state.nextPostPending = false) (hnx : m.state.nextDestIndex = b)
      (hpac : m.state.pacingCountDown + participants = m.state.doneCountDown + window + b)
      (hpos : 0 < m.state.pacingCountDown)
  | pending (hpen : m.state.nextPostPending = true) (hnx : m.state.nextDestIndex = b + window)
      (hpac : m.state.pacingCountDown = window) (hpla : m.place ≠ .outside) (hall : i = window)
      (hout : m.outstanding = [])

/-- The callback has not run; the current window begins at a number, and some of its sends are posted. -/
structure Begun (perm : ℕ → ℕ) (window participants : ℕ) (m : Manytomany) (b i : ℕ) : Prop where
  sent : m.sent = (List.range (b + i)).map perm
  window_le : i ≤ min window (participants - b)
  outstanding : m.outstanding.length + participants = b + i + m.state.doneCountDown
  completed : b + m.state.doneCountDown ≤ participants
  doneCountDown : 0 < m.state.doneCountDown
  pacingWindow : m.state.pacingWindow = window
  done : m.done = 0
  recycled : m.recycled = false
  used : m.used = false

structure Posting (perm : ℕ → ℕ) (window participants : ℕ) (m : Manytomany) (b i : ℕ) : Prop
    extends Begun perm window participants m b i where
  place : At m b i (min window (participants - b))
  paces : Paces window m b i participants

/-- The callback has run, outside of all loops. -/
structure Finished (perm : ℕ → ℕ) (participants : ℕ) (m : Manytomany) : Prop where
  sent : m.sent = (List.range participants).map perm
  place : m.place = .outside
  outstanding : m.outstanding = []
  pending : m.state.nextPostPending = false
  done : m.done = 1
  used : m.used = false

theorem ndestinations_eq (s : SendState) :
    s.ndestinations = min s.pacingCountDown s.doneCountDown := by
  rw [SendState.ndestinations]
  split <;> omega

theorem posting_postManytomany (hw : 0<window) (hd : 0<participants) :
    Posting perm window participants (postManytomany window participants) 0 0 := by
  have hpla : (postManytomany window participants).place = .post 0 (min window (participants-0)) := by
    rw [postManytomany,ndestinations_eq]
    rfl
  have hpac : window+participants=participants+window+0 := by omega
  exact ⟨⟨rfl,Nat.zero_le _,rfl,(Nat.zero_add participants).le,hd,rfl,rfl,rfl,rfl⟩,
    .post hpla rfl rfl,.current rfl rfl hpac hw⟩

theorem Begun.access (h : Begun perm window participants m b i) : m.access=m := by
  obtain ⟨state,place,sent,outstanding,done,recycled,used⟩ := m
  obtain rfl : recycled=false := h.recycled
  simp [Manytomany.access]

theorem Posting.simple (h : Posting perm window participants m b i)
    (hlt : i < min window (participants-b)) {place : Place}
    (hpla : place = .post (i+1) (min window (participants-b)) ∧ b=0 ∨
      place = .postNext (i+1) (min window (participants-b)))
    (hps : m.state.postInProgress=true) :
    Posting perm window participants (m.simple place (perm (b+i))) b (i+1) := by
  have hout := h.outstanding
  rw [Manytomany.simple,h.access]
  refine ⟨⟨?_,hlt,?_,h.completed,h.doneCountDown,h.pacingWindow,h.done,h.recycled,h.used⟩,?_,?_⟩
  · simp [h.sent,← Nat.add_assoc,range_succ]
  · simp only [length_append,length_cons,length_nil]
    omega
  · obtain ⟨rfl,hzr⟩ | rfl := hpla
    · exact .post rfl hps hzr
    · exact .postNext rfl hps
  · cases h.paces with
    | current hpen hnx hpac hpos => exact .current hpen hnx hpac hpos
    | pending hpen hnx hpac hne hall hnil => omega

theorem Posting.send (h : Posting perm window participants m b i) (hs : m.send perm = some m') :
    Posting perm window participants m' b (i+1) := by
  cases h.place with
  | outside hpla hps hall => simp [Manytomany.send,hpla] at hs
  | post hpla hps hfir =>
    simp only [Manytomany.send,hpla] at hs
    obtain ⟨hlt,rfl⟩ := ite_some_none_eq_some.mp hs
    have hinx : perm i = perm (b+i) := by rw [hfir,Nat.zero_add]
    rw [hinx]
    exact h.simple hlt (.inl ⟨rfl,hfir⟩) hps
  | postNext hpla hps =>
    simp only [Manytomany.send,hpla] at hs
    obtain ⟨hlt,rfl⟩ := ite_some_none_eq_some.mp hs
    have hnx : m.state.nextDestIndex=b := by
      cases h.paces with
      | current hpen hnx => exact hnx
      | pending hpen hnx hpac hne hall => omega
    rw [hnx,Nat.add_comm i b]
    exact h.simple hlt (.inr rfl) hps

theorem Begun.beginNext (hw : 0<window) (h : Begun perm window participants m b i)
    (hnx : m.state.nextDestIndex=b+window) (hpac : m.state.pacingCountDown=window)
    (hall : i=window) (hout : m.outstanding = []) :
    Posting perm window participants m.beginNext (b+window) 0 := by
  have hlen := h.outstanding
  have hle := h.window_le
  rw [hout,length_nil] at hlen
  have hpla : m.beginNext.place = .postNext 0 (min window (participants-(b+window))) := by
    simp only [Manytomany.beginNext,ndestinations_eq,hpac]
    congr 1
    omega
  have hlf : m.state.doneCountDown+(b+window)=participants := by omega
  refine ⟨⟨by rw [← hall]; exact h.sent,Nat.zero_le _,?_,?_,h.doneCountDown,h.pacingWindow,h.done,
    h.recycled,h.used⟩,.postNext hpla rfl,.current rfl hnx ?_ ?_⟩
  · simp only [Manytomany.beginNext,hout,length_nil]
    omega
  · simp only [Manytomany.beginNext]
    omega
  · simp only [Manytomany.beginNext,hpac]
    omega
  · simpa only [Manytomany.beginNext,hpac] using hw

theorem Posting.loopEnd (hw : 0<window) (h : Posting perm window participants m b i)
    (hs : m.loopEnd = some m') : ∃ b i, Posting perm window participants m' b i := by
  have hcas : (i=min window (participants-b)) ∧ m'=(if m.state.nextPostPending then m.beginNext
      else { m with place := .outside, state := { m.state with postInProgress := false } }) := by
    have hle := h.window_le
    cases h.place with
    | outside hpla hps hall => simp [Manytomany.loopEnd,hpla] at hs
    | post hpla hps hfir | postNext hpla hps =>
      simp only [Manytomany.loopEnd,hpla,h.access] at hs
      obtain ⟨hge,hs⟩ := ite_none_left_eq_some.mp hs
      exact ⟨by omega,(some.inj hs).symm⟩
  obtain ⟨hall,rfl⟩ := hcas
  cases h.paces with
  | current hpen hnx hpac hpos =>
    rw [hpen]
    exact ⟨b,i,⟨h.sent,h.window_le,h.outstanding,h.completed,h.doneCountDown,h.pacingWindow,h.done,
      h.recycled,h.used⟩,.outside rfl rfl hall,.current hpen hnx hpac hpos⟩
  | pending hpen hnx hpac hne hall hout =>
    rw [hpen]
    exact ⟨_,_,h.beginNext hw hnx hpac hall hout⟩

theorem Posting.complete (hw : 0<window) (h : Posting perm window participants m b i)
    (hp : p ∈ m.outstanding) (hd : m.state.doneCountDown≠1) : ∃ b i, Posting perm window participants
      ({ m with outstanding := m.outstanding.erase p } : Manytomany).sendM2mDone b i := by
  have hlen := length_erase_of_mem hp
  have hpos := length_pos_of_mem hp
  have hout := h.outstanding
  have hle := h.window_le
  have hdn := h.doneCountDown
  have hcom := h.completed
  have hacc : ({ m with outstanding := m.outstanding.erase p } : Manytomany).access =
      { m with outstanding := m.outstanding.erase p } := by
    simp [Manytomany.access,h.recycled]
  have hbeg : ∀ state : SendState, state.doneCountDown=m.state.doneCountDown-1 →
      state.pacingWindow=m.state.pacingWindow →
      Begun perm window participants { m with outstanding := m.outstanding.erase p, state := state } b i := by
    intro state hd hsm
    refine ⟨h.sent,h.window_le,?_,?_,?_,hsm.trans h.pacingWindow,h.done,h.recycled,h.used⟩
    · simp only [hd]
      omega
    · simp only [hd]
      omega
    · simp only [hd]
      omega
  cases h.paces with
  | pending hpen hnx hpac hpla hall hnil => simp [hnil] at hp
  | current hpen hnx hpac hcou =>
    by_cases hla : m.state.pacingCountDown-1=0
    · -- the last one of the window
      have hwin : i=window := by omega
      have hnil : m.outstanding.erase p = [] := eq_nil_of_length_eq_zero (by omega)
      have hinx : m.state.nextDestIndex+m.state.pacingWindow=b+window := by rw [hnx,h.pacingWindow]
      by_cases hps : m.state.postInProgress=true
      · have hpla : m.place ≠ .outside := by
          cases h.place with
          | outside _ hno => simp [hno] at hps
          | post hpla | postNext hpla => simp [hpla]
        refine ⟨b,i,?_⟩
        simp only [sendM2mDone,hacc,if_neg (show ¬ m.state.doneCountDown-1=0 by omega),if_pos hla,if_pos hps]
        refine ⟨hbeg _ rfl rfl,?_,.pending rfl hinx h.pacingWindow hpla hwin hnil⟩
        cases h.place with
        | outside _ hno => simp [hno] at hps
        | post hpla hps hfir => exact .post hpla hps hfir
        | postNext hpla hps => exact .postNext hpla hps
      · simp only [sendM2mDone,hacc,if_neg (show ¬ m.state.doneCountDown-1=0 by omega),if_pos hla,if_neg hps]
        exact ⟨b+window,0,Begun.beginNext hw (hbeg _ (by rfl) (by rfl)) hinx h.pacingWindow hwin hnil⟩
    · refine ⟨b,i,?_⟩
      simp only [sendM2mDone,hacc,if_neg (show ¬ m.state.doneCountDown-1=0 by omega),if_neg hla]
      refine ⟨hbeg _ rfl rfl,?_,.current hpen hnx ?_ ?_⟩
      · cases h.place with
        | outside hpla hps hall => exact .outside hpla hps hall
        | post hpla hps hfir => exact .post hpla hps hfir
        | postNext hpla hps => exact .postNext hpla hps
      · simp only
        omega
      · simp only
        omega

theorem Posting.complete_last (h : Posting perm window participants m b i) (hp : p ∈ m.outstanding)
    (hd : m.state.doneCountDown=1) :
    m.sent = (List.range participants).map perm ∧ m.outstanding.erase p = [] ∧
      i = min window (participants-b) ∧ m.state.nextPostPending=false ∧
      ({ m with outstanding := m.outstanding.erase p } : Manytomany).sendM2mDone =
        { m with
          outstanding := m.outstanding.erase p
          state := { m.state with doneCountDown := 0 }
          done := 1
          recycled := true } := by
  have hlen := length_erase_of_mem hp
  have hpos := length_pos_of_mem hp
  have hout := h.outstanding
  have hle := h.window_le
  have hcom := h.completed
  have hall : b+i=participants := by omega
  refine ⟨hall ▸ h.sent,eq_nil_of_length_eq_zero (by omega),by omega,?_,?_⟩
  · cases h.paces with
    | current hpen => exact hpen
    | pending hpen hnx hpac hpla hall hnil => simp [hnil] at hp
  · simp [sendM2mDone,Manytomany.access,h.recycled,h.used,h.done,hd]

def Proceeds (perm : ℕ → ℕ) (window participants : ℕ) (m : Manytomany) : Prop :=
  (∃ b i, Posting perm window participants m b i) ∨ Finished perm participants m

theorem Proceeds.step (hw : 0<window) (h : Proceeds perm window participants m) (hok : m.Clean e)
    (hs : m.step perm e = some m') : Proceeds perm window participants m' := by
  obtain ⟨b,i,h⟩ | h := h
  · cases e with
    | send => exact .inl ⟨_,_,h.send hs⟩
    | loopEnd => exact .inl (h.loopEnd hw hs)
    | complete p =>
      obtain ⟨hp,rfl⟩ := ite_some_none_eq_some.mp hs
      by_cases hd : m.state.doneCountDown=1
      · obtain ⟨hsn,hnil,-,hpen,hla⟩ := h.complete_last hp hd
        rw [hla]
        exact .inr ⟨hsn,hok hd,hnil,hpen,rfl,h.used⟩
      · exact .inl (h.complete hw hp hd)
  · cases e with
    | send => simp [Manytomany.step,Manytomany.send,h.place] at hs
    | loopEnd => simp [Manytomany.step,Manytomany.loopEnd,h.place] at hs
    | complete p => simp [Manytomany.step,h.outstanding] at hs

theorem left_sendM2mDone (participants : ℕ) (m : Manytomany) :
    m.sendM2mDone.left participants ≤ m.left participants+1 := by
  have hpla : (if m.place = .outside then 0 else 1)≤1 := by split <;> omega
  simp only [sendM2mDone,Manytomany.access]
  split
  case isTrue => exact Nat.le_add_right _ _
  case isFalse =>
    split
    case isFalse => exact Nat.le_add_right _ _
    case isTrue =>
      split
      case isTrue =>
        simp only [left,Bool.toNat_true]
        omega
      case isFalse =>
        simp only [left,beginNext,reduceCtorEq,if_false,Bool.toNat_false]
        omega

theorem left_send (h : m.sent.length<participants) (hs : m.send perm = some m') :
    m'.left participants < m.left participants := by
  have hsim : ∀ place p, m.place ≠ .outside → place ≠ .outside →
      (m.simple place p).left participants < m.left participants := by
    intro place p hne hne'
    have hlen : (m.simple place p).left participants = 3*(participants-(m.sent.length+1)) +
        2*(m.outstanding.length+1)+1+m.state.nextPostPending.toNat := by
      simp [left,simple,Manytomany.access,hne']
    rw [hlen,left,if_neg hne]
    omega
  cases hpla : m.place with
  | outside => simp [Manytomany.send,hpla] at hs
  | post i n | postNext i n =>
    simp only [Manytomany.send,hpla] at hs
    obtain ⟨-,rfl⟩ := ite_some_none_eq_some.mp hs
    exact hsim _ _ (by simp [hpla]) (by simp)

theorem left_loopEnd (participants : ℕ) (hs : m.loopEnd = some m') :
    m'.left participants < m.left participants := by
  have hnx : ∀ next : Manytomany, m.place ≠ .outside → (next = if m.state.nextPostPending then
        m.access.beginNext
      else { m.access with place := .outside, state := { m.state with postInProgress := false } }) →
      next.left participants < m.left participants := by
    intro next hne hnx
    rw [hnx]
    by_cases hpen : m.state.nextPostPending=true
    · simp [left,beginNext,Manytomany.access,hne,hpen]
    · simp [left,Manytomany.access,hne,hpen]
  cases hpla : m.place with
  | outside => simp [Manytomany.loopEnd,hpla] at hs
  | post i n | postNext i n =>
    simp only [Manytomany.loopEnd,hpla] at hs
    obtain ⟨-,hs⟩ := ite_none_left_eq_some.mp hs
    exact hnx m' (by simp [hpla]) (some.inj hs).symm

theorem left_complete (participants : ℕ) (hp : p ∈ m.outstanding) :
    ({ m with outstanding := m.outstanding.erase p } : Manytomany).sendM2mDone.left participants <
      m.left participants := by
  have hdn := left_sendM2mDone participants { m with outstanding := m.outstanding.erase p }
  have hlen := length_erase_of_mem hp
  have hpos := length_pos_of_mem hp
  have hera : ({ m with outstanding := m.outstanding.erase p } : Manytomany).left participants+2 =
      m.left participants := by
    simp only [left,hlen]
    omega
  omega

theorem Begun.length_sent (h : Begun perm window participants m b i) : m.sent.length=b+i := by
  rw [h.sent,length_map,length_range]

theorem Posting.length_le (h : Posting perm window participants m b i) :
    m.sent.length≤participants ∧ m.outstanding.length≤window := by
  have hlen := h.length_sent
  have hout := h.outstanding
  have hle := h.window_le
  have hpos := h.doneCountDown
  have hcom := h.completed
  refine ⟨by omega,?_⟩
  cases h.paces with
  | current hpen hnx hpac hcou => omega
  | pending hpen hnx hpac hpla hall hnil => simp [hnil]

theorem Posting.progress (h : Posting perm window participants m b i) :
    ∃ e m', m.step perm e = some m' := by
  have hloop : ∀ j n, m.place = .post j n ∨ m.place = .postNext j n →
      ∃ e m', m.step perm e = some m' := by
    intro j n hpla
    by_cases hlt : j<n
    · obtain hpla | hpla := hpla
      · exact ⟨.send,_,by rw [Manytomany.step,Manytomany.send,hpla]; exact if_pos hlt⟩
      · exact ⟨.send,_,by rw [Manytomany.step,Manytomany.send,hpla]; exact if_pos hlt⟩
    · obtain hpla | hpla := hpla
      · exact ⟨.loopEnd,_,by simp only [Manytomany.step,Manytomany.loopEnd,hpla]; exact if_neg hlt⟩
      · exact ⟨.loopEnd,_,by simp only [Manytomany.step,Manytomany.loopEnd,hpla]; exact if_neg hlt⟩
  cases h.place with
  | post hpla => exact hloop _ _ (.inl hpla)
  | postNext hpla => exact hloop _ _ (.inr hpla)
  | outside hpla hps hall =>
    have hout := h.outstanding
    have hcom := h.completed
    have hpos := h.doneCountDown
    cases h.paces with
    | pending hpen hnx hpac hne => exact absurd hpla hne
    | current hpen hnx hpac hcou =>
      obtain ⟨p,hp⟩ := exists_mem_of_length_pos (show 0 < m.outstanding.length by omega)
      exact ⟨.complete p,_,if_pos hp⟩

section

variable (hperm : Set.BijOn perm (Set.Iio participants) (Set.Iio participants))
include hperm

theorem sent_perm {k : ℕ} (hk : k≤participants) :
    ((List.range k).map perm).Nodup ∧ ∀ p ∈ (List.range k).map perm, p<participants := by
  constructor
  · apply List.Nodup.map_on _ nodup_range
    intro x hx y hy heq
    exact hperm.injOn ((List.mem_range.mp hx).trans_le hk) ((List.mem_range.mp hy).trans_le hk) heq
  · intro p hp
    obtain ⟨x,hx,rfl⟩ := List.mem_map.mp hp
    exact hperm.mapsTo ((List.mem_range.mp hx).trans_le hk)

theorem map_range_perm : ((List.range participants).map perm).Perm (List.range participants) := by
  obtain ⟨hnod,hmem⟩ := sent_perm hperm le_rfl
  refine (perm_ext_iff_of_nodup hnod nodup_range).mpr fun p => ⟨fun hp => ?_,fun hp => ?_⟩
  · exact List.mem_range.mpr (hmem p hp)
  · obtain ⟨x,hx,rfl⟩ := hperm.surjOn (List.mem_range.mp hp)
    exact List.mem_map_of_mem (List.mem_range.mpr hx)

theorem Proceeds.paced (h : Proceeds perm window participants m) : m.Paced perm window participants := by
  obtain ⟨b,i,h⟩ | h := h
  · obtain ⟨hsn,hout⟩ := h.length_le
    have hdis := sent_perm hperm hsn
    rw [h.length_sent,← h.sent] at hdis
    refine ⟨hdis,hout,by rw [h.done]; exact Nat.zero_le 1,fun hone => ?_,h.used,
      fun _ => h.progress,fun e m' hs => ?_⟩
    · simp [h.done] at hone
    · cases e with
      | send =>
        have hnx := (h.send hs).length_le.1
        have hlen := (h.send hs).length_sent
        have := h.length_sent
        exact left_send (by omega) hs
      | loopEnd => exact left_loopEnd participants hs
      | complete p =>
        obtain ⟨hp,rfl⟩ := ite_some_none_eq_some.mp hs
        exact left_complete participants hp
  · refine ⟨by rw [h.sent]; exact sent_perm hperm le_rfl,by simp [h.outstanding],h.done.le,
      fun _ => ⟨by rw [h.sent]; exact map_range_perm hperm,h.outstanding⟩,h.used,
      fun hzr => by simp [h.done] at hzr,fun e m' hs => ?_⟩
    cases e with
    | send => simp [Manytomany.step,Manytomany.send,h.place] at hs
    | loopEnd => simp [Manytomany.step,Manytomany.loopEnd,h.place] at hs
    | complete p => simp [Manytomany.step,h.outstanding] at hs

end

theorem Posting.used_after (h : Posting perm window participants m b i) (hs : m.step perm e = some m')
    (hok : ¬ m.Clean e) : ∃ m'', m'.step perm .loopEnd = some m'' ∧ m''.used=true := by
  cases e with
  | send | loopEnd => exact absurd trivial hok
  | complete p =>
    obtain ⟨hd,hpla⟩ := Classical.not_imp.mp hok
    obtain ⟨hp,rfl⟩ := ite_some_none_eq_some.mp hs
    obtain ⟨-,-,hall,hpen,hla⟩ := h.complete_last hp hd
    rw [hla]
    cases h.place with
    | outside hout => exact absurd hout hpla
    | post hpla | postNext hpla =>
      simp [Manytomany.step,Manytomany.loopEnd,hpla,hpen,hall,Manytomany.access]

/-- In all runs whose last send completes outside of the loops that post, all is as it should be; and when it
completes inside of one, the state object is used after the done callback. -/
theorem manytomany_paced (hw : 0 < window) (hd : 0 < participants)
    (hperm : Set.BijOn perm (Set.Iio participants) (Set.Iio participants))
    (hrun : Run (step perm) Clean (postManytomany window participants) m) :
    m.Paced perm window participants ∧ ∀ e m', m.step perm e = some m' →
      if m.Clean e then m'.Paced perm window participants
      else ∃ m'', m'.step perm .loopEnd = some m'' ∧ m''.used = true := by
  have hprc : Proceeds perm window participants m :=
    hrun.invariant (.inl ⟨0,0,posting_postManytomany hw hd⟩) fun _ _ _ h hok hs => h.step hw hok hs
  refine ⟨hprc.paced hperm,fun e m' hs => ?_⟩
  by_cases hok : m.Clean e
  · rw [if_pos hok]
    exact (hprc.step hw hok hs).paced hperm
  · rw [if_neg hok]
    obtain ⟨b,i,h⟩ | h := hprc
    · exact h.used_after hs hok
    · cases e with
      | send | loopEnd => exact absurd trivial hok
      | complete p => exact absurd (fun _ => h.place) hok

theorem manytomany_paced_three : ∃ m, execEvents (step fun i => (i + 1) % 3)
      [.send, .complete 1, .send, .loopEnd, .complete 2, .send, .loopEnd, .complete 0]
      (postManytomany 2 3) = some m ∧ m.Paced (fun i => (i + 1) % 3) 2 3 ∧ m.done = 1 := by
  have hperm : Set.BijOn (fun i => (i + 1) % 3) (Set.Iio 3) (Set.Iio 3) := by
    refine ⟨fun i _ => Nat.mod_lt _ (by decide),fun x hx y hy heq => ?_,fun y hy => ?_⟩
    · simp only [Set.mem_Iio] at hx hy heq
      omega
    · simp only [Set.mem_Iio] at hy
      exact ⟨(y + 2) % 3,Nat.mod_lt _ (by decide),by simp only; omega⟩
  refine ⟨_,rfl,(manytomany_paced (by decide) (by decide) hperm ?_).1,rfl⟩
  exact Run.refl.checked [.send,.complete 1,.send,.loopEnd,.complete 2,.send,.loopEnd,.complete 0] rfl

/-- The one send completes in its call, and the state object is used after the done callback. -/
theorem manytomany_used_after : ∃ m, Run (step id) (fun _ _ => True) (postManytomany 1 1) m ∧
    m.done = 1 ∧ m.used = true :=
  ⟨_,Run.refl.execEvents [.send,.complete 0,.loopEnd] (fun _ _ _ => trivial) rfl,rfl,rfl⟩

end Manytomany

end PAMI.M2m
