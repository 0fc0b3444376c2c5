import Mathlib.Data.List.TakeWhile
import Mathlib.Data.Nat.Find
import PAMI.Math.Runs

namespace PAMI.Shmem

open PAMI.Math

/-- What a packet holds for the dispatch: its id, and its metadata and payload. -/
structure UnexpectedPacket (π : Type*) where
  id : ℕ
  contents : π
  deriving DecidableEq, Repr

/-- `T_SetCount` and `T_SetSize`, with the compile time assertion of the constructor. -/
structure DispatchSets where
  setCount : ℕ
  setSize : ℕ
  setCount_pos : 0 < setCount
  setSize_pos : 0 < setSize
  table_le : setCount * setSize ≤ 65536

/-- A receive function with its client data, or `none` for `unexpected` with the queue of the set.
The logs of arrived packets and of calls are for the statements only. -/
structure Dispatch (φ π : Type*) where
  function : ℕ → Option φ
  ueQ : ℕ → List (UnexpectedPacket π)
  systemUeQ : List (UnexpectedPacket π)
  arrived : List (UnexpectedPacket π)
  calls : List (φ × UnexpectedPacket π)

/-- The packets a context receives, and the registrations it makes. -/
inductive DispatchEvent (φ π : Type*) where
  | packet (p : UnexpectedPacket π)
  | registerUserDispatch (set : ℕ) (function : φ)
  | registerSystemDispatch (function : φ)

namespace Dispatch

variable {φ π : Type*} (sets : DispatchSets)

def initial : Dispatch φ π := ⟨fun _ => none, fun _ => [], [], [], []⟩

def consume (s : Dispatch φ π) (p : UnexpectedPacket π) : Dispatch φ π :=
  match s.function p.id with
  | some f => { s with arrived := s.arrived ++ [p], calls := s.calls ++ [(f, p)] }
  | none =>
    { s with
      arrived := s.arrived ++ [p]
      ueQ := Function.update s.ueQ (p.id / sets.setSize) (s.ueQ (p.id / sets.setSize) ++ [p]) }

/-- The search of `registerUserDispatch` from an id. The id has sixteen bits and starts again at
zero, so that the search has gone round the table when the fuel ends. -/
@[grind =] def nextFree (function : ℕ → Option φ) (n : ℕ) : ℕ → ℕ → Option (Option ℕ)
  | 0, _ => none
  | fuel + 1, id =>
    if id < n then
      if (function id).isNone then some (some id)
      else nextFree function n fuel ((id + 1) % 65536)
    else some none

/-- The search of `registerSystemDispatch`, from an id down to one. -/
@[grind =] def lastFree (function : ℕ → Option φ) : ℕ → Option ℕ
  | 0 => none
  | id + 1 => if (function (id + 1)).isNone then some (id + 1) else lastFree function id

/-- The calls of the loop over the queue of a set, and what it leaves. -/
@[grind =] def drain (function : ℕ → Option φ) :
    List (UnexpectedPacket π) → List (φ × UnexpectedPacket π) × List (UnexpectedPacket π)
  | [] => ([], [])
  | p :: q =>
    match function p.id with
    | some f => ((f, p) :: (drain function q).1, (drain function q).2)
    | none => ([], p :: q)

/-- The loop over the system queue, which does not end at a packet without a function. -/
def drainSystem (function : ℕ → Option φ) :
    List (UnexpectedPacket π) → Option (List (φ × UnexpectedPacket π))
  | [] => some []
  | p :: q => (function p.id).bind fun f => (drainSystem function q).map ((f, p) :: ·)

/-- The table entry of an id, and the loop over the queue of a set. -/
def registerAt (s : Dispatch φ π) (set id : ℕ) (f : φ) : Dispatch φ π :=
  let function := Function.update s.function id (some f)
  { s with
    function := function
    ueQ := Function.update s.ueQ set (drain function (s.ueQ set)).2
    calls := s.calls ++ (drain function (s.ueQ set)).1 }

/-- `none` when the call does not return, and no id with `PAMI_ERROR`. -/
def registerUserDispatch (s : Dispatch φ π) (set : ℕ) (f : φ) : Option (Option ℕ × Dispatch φ π) :=
  if sets.setCount ≤ set then some (none, s)
  else
    (nextFree s.function (set * sets.setSize + sets.setSize) 131073 (set * sets.setSize)).map
      fun found =>
        match found with
        | none => (none, s)
        | some id => (some id, registerAt s set id f)

def registerSystemDispatch (s : Dispatch φ π) (f : φ) : Option (Option ℕ × Dispatch φ π) :=
  match lastFree s.function (sets.setSize * sets.setCount - 1) with
  | none => some (none, s)
  | some id =>
    let function := Function.update s.function id (some f)
    (drainSystem function s.systemUeQ).map fun calls =>
      (some id, { s with function := function, systemUeQ := [], calls := s.calls ++ calls })

/-- One event, with no state when it does not return or the packet is for no id of the table. -/
def step (s : Dispatch φ π) : DispatchEvent φ π → Option (Dispatch φ π)
  | .packet p => if p.id < sets.setCount * sets.setSize then some (consume sets s p) else none
  | .registerUserDispatch set f => (registerUserDispatch sets s set f).map Prod.snd
  | .registerSystemDispatch f => (registerSystemDispatch sets s f).map Prod.snd

section Projections

variable {sets}

def arrivedFor (s : Dispatch φ π) (id : ℕ) : List (UnexpectedPacket π) := s.arrived.filter fun p => p.id = id

def callsFor (s : Dispatch φ π) (id : ℕ) : List (φ × UnexpectedPacket π) := s.calls.filter fun c => c.2.id = id

variable (sets)

def queuedFor (s : Dispatch φ π) (id : ℕ) : List (UnexpectedPacket π) :=
  (s.ueQ (id / sets.setSize)).filter fun p => p.id = id

/-- Unexpected packets are in the queue of the set of their id, and never in the system queue. -/
structure Placed (s : Dispatch φ π) : Prop where
  home : ∀ k, ∀ p ∈ s.ueQ k, p.id / sets.setSize = k
  system : s.systemUeQ = []

/-- The calls of a registered id are its packets in the order of arrival, with none queued; the
packets of any other id are all queued in that order. -/
structure Delivered (s : Dispatch φ π) : Prop where
  registered : ∀ id f, s.function id = some f → callsFor s id = (arrivedFor s id).map (f, ·) ∧ queuedFor sets s id = []
  unregistered : ∀ id, s.function id = none → callsFor s id = [] ∧ queuedFor sets s id = arrivedFor s id

def FirstFree (function : ℕ → Option φ) (a n id : ℕ) : Prop :=
  a ≤ id ∧ id < n ∧ function id = none ∧ ∀ j, a ≤ j → j < id → function j ≠ none

def LastFree (function : ℕ → Option φ) (m id : ℕ) : Prop :=
  0 < id ∧ id ≤ m ∧ function id = none ∧ ∀ j, id < j → j ≤ m → function j ≠ none

/-- A packet is for an id of the table; at a user registration the packets for the next free id come before all others, or
another id is free that has none; and at a system registration no packet is queued for the id it takes. -/
def Clean (s : Dispatch φ π) : DispatchEvent φ π → Prop
  | .packet p => p.id < sets.setCount * sets.setSize
  | .registerUserDispatch set _ => set < sets.setCount →
    (∀ id, FirstFree s.function (set * sets.setSize) (set * sets.setSize + sets.setSize) id →
      ∀ p ∈ (s.ueQ set).dropWhile (fun p => p.id = id), p.id ≠ id) ∧
    (set * sets.setSize + sets.setSize = 65536 → (∀ j, set * sets.setSize ≤ j → j < 65536 → s.function j ≠ none) →
      ∃ id, FirstFree s.function 0 65536 id ∧ queuedFor sets s id = [])
  | .registerSystemDispatch _ =>
    ∀ id, LastFree s.function (sets.setSize * sets.setCount - 1) id → queuedFor sets s id = []

end Projections

section Loops

variable {function : ℕ → Option φ} {n : ℕ} {id m : ℕ}

variable (function) in
theorem firstFree_or_full (a n : ℕ) :
    (∃ id, FirstFree function a n id) ∨ ∀ j, a≤j → j<n → function j ≠ none := by
  by_cases h : ∃ j, a≤j ∧ j<n ∧ function j=none
  · classical
    obtain ⟨ha,hlt,hnn⟩ := Nat.find_spec h
    refine Or.inl ⟨Nat.find h,ha,hlt,hnn,fun j hj hlt' hnn' => ?_⟩
    exact Nat.find_min h hlt' ⟨hj,by omega,hnn'⟩
  · exact Or.inr fun j ha hlt hnn => h ⟨j,ha,hlt,hnn⟩

theorem nextFree_ahead {fuel : ℕ} (hn : n≤65536) (hm : id ≤ m) (hmn : m≤n) (hm' : m<65536)
    (hreg : ∀ j, id≤j → j < m → function j ≠ none) :
    nextFree function n (fuel+(m-id)) id = nextFree function n fuel m := by
  induction k : m-id generalizing id with
  | zero =>
    have : id=m := by omega
    simp [this]
  | succ k ih =>
    have hlt : id<n := by omega
    have hfull : ¬ (function id).isNone := by simpa using hreg id le_rfl (by omega)
    have hmod : (id+1)%65536=id+1 := Nat.mod_eq_of_lt (by omega)
    rw [← Nat.add_assoc,nextFree,if_pos hlt,if_neg hfull,hmod]
    exact ih (by omega) (fun j hj => hreg j (by omega)) (by omega)

theorem nextFree_found {a fuel : ℕ} (hn : n≤65536) (hfr : FirstFree function a n id)
    (hfuel : n-a<fuel) : nextFree function n fuel a = some (some id) := by
  obtain ⟨ha,hid,hnn,hreg⟩ := hfr
  obtain ⟨fuel,rfl⟩ : ∃ k, fuel=k+1+(id-a) := ⟨fuel-1-(id-a),by omega⟩
  rw [nextFree_ahead hn ha hid.le (by omega) hreg,nextFree,if_pos hid,hnn]
  rfl

theorem nextFree_full {a fuel : ℕ} (hn : n<65536) (ha : a≤n)
    (hreg : ∀ j, a≤j → j<n → function j ≠ none) (hfuel : n-a<fuel) :
    nextFree function n fuel a = some none := by
  obtain ⟨fuel,rfl⟩ : ∃ k, fuel=k+1+(n-a) := ⟨fuel-1-(n-a),by omega⟩
  rw [nextFree_ahead hn.le ha le_rfl hn hreg,nextFree,if_neg (by omega)]

theorem nextFree_wrap {a fuel : ℕ} (ha : a<65536)
    (hreg : ∀ j, a≤j → j<65536 → function j ≠ none) :
    nextFree function 65536 (fuel+1+(65535-a)) a = nextFree function 65536 fuel 0 := by
  rw [nextFree_ahead le_rfl (by omega) (by omega) (by omega)
    (fun j hj hlt => hreg j hj (by omega)),nextFree,if_pos (by omega),if_neg]
  simpa using hreg 65535 (by omega) (by omega)

theorem nextFree_spins (hreg : ∀ j, j<65536 → function j ≠ none) (fuel id : ℕ)
    (hid : id<65536) : nextFree function 65536 fuel id = none := by
  induction fuel generalizing id with
  | zero => rfl
  | succ fuel ih =>
    rw [nextFree,if_pos hid,if_neg (by simpa using hreg id hid)]
    exact ih _ (Nat.mod_lt _ (by omega))

theorem lastFree_eq_some (h : lastFree function m = some id) : LastFree function m id := by
  induction m with
  | zero => simp [lastFree] at h
  | succ m ih =>
    by_cases hnn : (function (m+1)).isNone
    · rw [lastFree,if_pos hnn,Option.some_inj] at h
      subst h
      exact ⟨by omega,le_rfl,by simpa using hnn,fun j hj hle => by omega⟩
    · rw [lastFree,if_neg hnn] at h
      obtain ⟨hpos,hle,hfr,hreg⟩ := ih h
      refine ⟨hpos,by omega,hfr,fun j hj hle' => ?_⟩
      by_cases hjm : j=m+1
      · subst hjm
        simpa using hnn
      · exact hreg j hj (by omega)

theorem lastFree_eq_none (h : lastFree function m = none) (hpos : 0 < id) (hle : id ≤ m) :
    function id ≠ none := by
  induction m with
  | zero => omega
  | succ m ih =>
    by_cases hnn : (function (m+1)).isNone
    · simp [lastFree,hnn] at h
    · rw [lastFree,if_neg hnn] at h
      by_cases hid : id=m+1
      · simpa [hid] using hnn
      · exact ih h (by omega)

theorem FirstFree.unique {a id' : ℕ} (h : FirstFree function a n id) (h' : FirstFree function a n id') :
    id=id' := by
  obtain ⟨ha,_,hfr,hreg⟩ := h
  obtain ⟨ha',_,hfr',hreg'⟩ := h'
  have h1 : ¬ id < id' := fun hlt => hreg' id ha hlt hfr
  have h2 : ¬ id' < id := fun hlt => hreg id' ha' hlt hfr'
  omega

theorem LastFree.unique {id' : ℕ} (h : LastFree function m id) (h' : LastFree function m id') : id=id' := by
  obtain ⟨_,hm,hfr,hreg⟩ := h
  obtain ⟨_,hm',hfr',hreg'⟩ := h'
  have h1 : ¬ id < id' := fun hlt => hreg id' hlt hm' hfr'
  have h2 : ¬ id' < id := fun hlt => hreg' id hlt hm hfr
  omega

theorem drain_eq {f : φ} {q : List (UnexpectedPacket π)} (hf : function id = some f)
    (hq : ∀ p ∈ q, p.id≠id → function p.id = none) : drain function q =
      ((q.takeWhile fun p => p.id=id).map (f, ·), q.dropWhile fun p => p.id=id) := by
  induction q with
  | nil => rfl
  | cons p q ih =>
    by_cases hp : p.id=id
    · simp [drain,hp,hf,ih fun p hp => hq p (by simp [hp])]
    · simp [drain,hp,hq p (by simp) hp]

end Loops

end Dispatch

end PAMI.Shmem
