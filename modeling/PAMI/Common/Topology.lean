import Mathlib.Algebra.BigOperators.Group.Finset.Basic
import PAMI.Math.MixedRadix

namespace PAMI.Common

/-- Coordinates; a mapping reads as many of them as it has dimensions. -/
abbrev Coord := ℕ → ℕ

/-- What a topology uses of the mapping of the machine. -/
structure Mapping where
  globalDims : ℕ
  torusSize : ℕ → ℕ
  task2network : ℕ → Coord
  network2task : Coord → ℕ

/-- The type of a topology with its part of the union; a rank list is the memory behind its pointer,
and of a rectangle segment the corners are kept. -/
inductive Kind
  | EMPTY
  | SINGLE (rank : ℕ)
  | RANGE (first last : ℕ)
  | LIST (ranklist : ℕ → ℕ)
  | COORD (ll ur : Coord)
  | AXIAL (ll ur center : Coord)

structure Topology where
  type : Kind
  size : ℕ
  offset : ℕ
  allContexts : Bool

/-- `(pami_task_t)-1`. -/
def noTask : ℕ := 2 ^ 32 - 1

/-- `(size_t)-1`. -/
def noIndex : ℕ := 2 ^ 64 - 1

/-- A difference of words of `w` bits. -/
def wordSub (w a b : ℕ) : ℕ := (2 ^ w + a - b) % 2 ^ w

/-- The loop of `index2Rank` for a rectangle segment, down from dimension `x`; the last dimension is
least significant. -/
def coordOfIndex (ll ur : Coord) : ℕ → ℕ → Coord → Coord
  | 0, _, c0 => c0
  | x + 1, ix, c0 =>
    if ix = 0 then c0
    else
      let nn := ur x - ll x + 1
      coordOfIndex ll ur x (ix / nn) (Function.update c0 x (ll x + ix % nn))

/-- The loop of `rank2Index` for a rectangle segment. -/
def indexOfCoord (ll ur c0 : Coord) : List ℕ → ℕ → ℕ
  | [], ix => ix
  | x :: xs, ix =>
    if c0 x < ll x ∨ ur x < c0 x then noIndex
    else indexOfCoord ll ur c0 xs (ix * (ur x - ll x + 1) + (c0 x - ll x))

/-- The loop of `index2Rank` for an axial neighborhood: in each dimension the arm towards `ur`, then
the one towards `ll`. -/
def axialOfIndex (torusSize : ℕ → ℕ) (ll ur center : Coord) : List ℕ → ℕ → Coord
  | [], _ => center
  | x :: xs, ix =>
    if ix = 0 then center
    else
      let nn := (torusSize x + ur x - center x) % torusSize x
      if ix ≤ nn then Function.update center x ((center x + ix) % torusSize x)
      else
        let ix := ix - nn
        let nn := (torusSize x + center x - ll x) % torusSize x
        if ix ≤ nn then
          Function.update center x ((torusSize x + center x - ix) % torusSize x)
        else axialOfIndex torusSize ll ur center xs (ix - nn)

/-- The loop of `rank2Index` for an axial neighborhood; `ur - ll` is a difference of `unsigned`
variables, `ur - center` one of type `size_t`. -/
def indexOfAxial (ll ur center c0 : Coord) : List ℕ → ℕ → ℕ
  | [], _ => 0
  | x :: xs, ix =>
    if c0 x = center x then
      indexOfAxial ll ur center c0 xs ((ix + wordSub 32 (ur x) (ll x)) % 2 ^ 64)
    else if center x < c0 x then (ix + (c0 x - center x)) % 2 ^ 64
    else (ix + (wordSub 64 (ur x) (center x) + (center x - c0 x))) % 2 ^ 64

def isMemberCoord (ll ur c0 : Coord) (ndims : ℕ) : Bool :=
  (List.range ndims).all fun x => !(decide (c0 x < ll x) || decide (ur x < c0 x))

/-- The loop of `__nextCoord`, down from dimension `x`. -/
def nextCoord (ll ur : Coord) : ℕ → Coord → Bool × Coord
  | 0, c0 => (false, c0)
  | x + 1, c0 =>
    if c0 x + 1 ≤ ur x then (true, Function.update c0 x (c0 x + 1))
    else nextCoord ll ur x (Function.update c0 x (ll x))

namespace Topology

variable (m : Mapping) (t : Topology)

/-- `size`. -/
def numRanks : ℕ := if t.allContexts then t.size * t.offset else t.size

def index2Rank (ix : ℕ) : ℕ :=
  let ix := if t.allContexts then ix / t.offset else ix
  if ix < t.size then
    match t.type with
    | .SINGLE rank => rank
    | .RANGE first _ => first + ix
    | .LIST ranklist => ranklist ix
    | .AXIAL ll ur center => m.network2task (axialOfIndex m.torusSize ll ur center (List.range m.globalDims) ix)
    | .COORD ll ur => m.network2task (coordOfIndex ll ur m.globalDims ix ll)
    | .EMPTY => noTask
  else noTask

def rank2Index (rank : ℕ) : ℕ :=
  match t.type with
  | .SINGLE r => if r = rank then 0 else noIndex
  | .RANGE first last => if first ≤ rank ∧ rank ≤ last then rank - first else noIndex
  | .LIST ranklist =>
    match (List.range t.size).find? fun x => rank == ranklist x with
    | some x => x
    | none => noIndex
  | .AXIAL ll ur center => indexOfAxial ll ur center (m.task2network rank) (List.range m.globalDims) 0
  | .COORD ll ur => indexOfCoord ll ur (m.task2network rank) (List.range m.globalDims) 0
  | .EMPTY => noIndex

def isRankMember (rank : ℕ) : Bool :=
  match t.type with
  | .COORD ll ur => isMemberCoord ll ur (m.task2network rank) m.globalDims
  | .AXIAL ll ur _ => isMemberCoord ll ur (m.task2network rank) m.globalDims
  | .SINGLE r => rank == r
  | .RANGE first last => decide (first ≤ rank) && decide (rank ≤ last)
  | .LIST ranklist => (List.range t.size).any fun i => rank == ranklist i
  | .EMPTY => false

end Topology

/-- The `n` tasks of the machine are its coordinates. -/
structure Mapping.Bijective (m : Mapping) (n : ℕ) : Prop where
  small : n < 2 ^ 32
  coords : ∀ r < n, ∀ x < m.globalDims, m.task2network r x < m.torusSize x
  task : ∀ c : Coord, (∀ x < m.globalDims, c x < m.torusSize x) → m.network2task c < n
  injective : ∀ r < n, ∀ r' < n, (∀ x < m.globalDims, m.task2network r x = m.task2network r' x) → r = r'
  right : ∀ c : Coord, (∀ x < m.globalDims, c x < m.torusSize x) →
    ∀ x < m.globalDims, m.task2network (m.network2task c) x = c x

namespace Mapping.Bijective

variable {m : Mapping} {n r : ℕ} {c : Coord}

theorem task_eq (h : m.Bijective n) (hr : r<n)
    (hc : ∀ x < m.globalDims, m.task2network r x = c x) : m.network2task c = r := by
  have hin : ∀ x < m.globalDims, c x < m.torusSize x := fun x hx => by rw [← hc x hx]; exact h.coords r hr x hx
  exact h.injective _ (h.task c hin) r hr fun x hx => by rw [h.right c hin x hx,hc x hx]

end Mapping.Bijective

/-- The number of tasks on an arm of dimension `x` and on the opposite arm, in ring order. -/
def upArm (torusSize : ℕ → ℕ) (ur center : Coord) (x : ℕ) : ℕ := (torusSize x + ur x - center x) % torusSize x

def downArm (torusSize : ℕ → ℕ) (ll center : Coord) (x : ℕ) : ℕ := (torusSize x + center x - ll x) % torusSize x

/-- A topology of tasks of a machine as the constructors build it: inside the machine, no task twice,
the arms of an axial neighborhood apart. -/
def Topology.Valid (m : Mapping) (n : ℕ) (t : Topology) : Prop := t.allContexts = false ∧
    match t.type with
    | .EMPTY => t.size = 0
    | .SINGLE rank => t.size = 1 ∧ rank < n
    | .RANGE first last => first ≤ last ∧ last < n ∧ t.size = last - first + 1
    | .LIST ranklist => (∀ i < t.size, ranklist i < n) ∧
        ∀ i < t.size, ∀ j < t.size, ranklist i = ranklist j → i = j
    | .COORD ll ur => (∀ x < m.globalDims, ll x ≤ ur x ∧ ur x < m.torusSize x) ∧
        t.size = (Math.Box.mk ll ur).card m.globalDims
    | .AXIAL ll ur center =>
        (∀ x < m.globalDims, ll x < m.torusSize x ∧ ur x < m.torusSize x ∧ center x < m.torusSize x ∧
          upArm m.torusSize ur center x + downArm m.torusSize ll center x < m.torusSize x) ∧
        t.size = 1 + ∑ x ∈ Finset.range m.globalDims, (m.torusSize x + ur x - ll x) % m.torusSize x

def Topology.Member (m : Mapping) (n : ℕ) (t : Topology) (rank : ℕ) : Prop := rank < n ∧
    match t.type with
    | .EMPTY => False
    | .SINGLE r => rank = r
    | .RANGE first last => first ≤ rank ∧ rank ≤ last
    | .LIST ranklist => ∃ i < t.size, ranklist i = rank
    | .COORD ll ur => (Math.Box.mk ll ur).Inside m.globalDims (m.task2network rank)
    | .AXIAL ll ur center =>
        (∀ x < m.globalDims, m.task2network rank x = center x) ∨
          ∃ x < m.globalDims, (∀ y < m.globalDims, y ≠ x → m.task2network rank y = center y) ∧
            (upArm m.torusSize (m.task2network rank) center x ≤ upArm m.torusSize ur center x ∨
              downArm m.torusSize (m.task2network rank) center x ≤ downArm m.torusSize ll center x)

namespace Topology

variable {m : Mapping} {n : ℕ} {t : Topology} {r : ℕ}

theorem isMemberCoord_iff {ll ur c0 : Coord} {d : ℕ} :
    isMemberCoord ll ur c0 d = true ↔ (Math.Box.mk ll ur).Inside d c0 := by
  simp [isMemberCoord,Math.Box.Inside]

theorem isRankMember_iff (hr : r<n) (ht : ∀ ll ur center, t.type ≠ .AXIAL ll ur center) :
    t.isRankMember m r = true ↔ t.Member m n r := by
  unfold isRankMember Member
  cases h : t.type with
  | EMPTY => simp
  | SINGLE rank | RANGE first last => simp [hr]
  | LIST ranklist => simp [hr,eq_comm (a := r)]
  | COORD ll ur => simpa [hr] using isMemberCoord_iff
  | AXIAL ll ur center => exact absurd h (ht ll ur center)

end Topology

/-- A list of endpoints: the memory behind its pointer holds the task and the context of each. -/
structure EndpointList where
  size : ℕ
  eplist : ℕ → ℕ × ℕ

/-- A topology of any type. -/
inductive AnyTopology
  | tasks (t : Topology)
  | EPLIST (l : EndpointList)

/-- A topology of tasks of a machine; a list may name a task twice. -/
def Topology.WellFormed (m : Mapping) (n : ℕ) (t : Topology) : Prop :=
  match t.type with
  | .EMPTY => t.size = 0
  | .SINGLE rank => t.size = 1 ∧ rank < n
  | .RANGE first last => first ≤ last ∧ last < n ∧ t.size = last - first + 1
  | .LIST ranklist => ∀ i < t.size, ranklist i < n
  | .COORD ll ur => (∀ x < m.globalDims, ll x ≤ ur x ∧ ur x < m.torusSize x) ∧
      t.size = (Math.Box.mk ll ur).card m.globalDims
  | .AXIAL _ _ _ => True

namespace AnyTopology

variable (m : Mapping) (n : ℕ)

/-- In a list of endpoints `isRankMember` looks for the context of offset 0 of the task. -/
def isRankMember (rank : ℕ) : AnyTopology → Bool
  | .tasks t => t.isRankMember m rank
  | .EPLIST l => (List.range l.size).any fun i => l.eplist i == (rank, 0)

@[grind =] def Member (rank : ℕ) : AnyTopology → Prop
  | .tasks t => t.Member m n rank
  | .EPLIST l => rank < n ∧ ∃ i < l.size, (l.eplist i).1 = rank

/-- `size`. -/
def numRanks : AnyTopology → ℕ
  | .tasks t => t.numRanks
  | .EPLIST l => l.size

def WellFormed : AnyTopology → Prop
  | .tasks t => t.WellFormed m n
  | .EPLIST _ => True

variable {m n}

theorem Member.lt {rank : ℕ} : ∀ {t : AnyTopology}, t.Member m n rank → rank<n
  | .tasks _, h => h.1
  | .EPLIST _, h => h.1

end AnyTopology

end PAMI.Common
