import Mathlib.Algebra.BigOperators.Group.Finset.Basic
import Mathlib.Data.List.GetD
import Mathlib.Tactic.Linarith

namespace PAMI.Schedule

open List

/-- A topology: its endpoints in the order of their indices, none of them twice. -/
structure Topology where
  endpoints : List ℕ
  nodup : endpoints.Nodup

namespace Topology

def size (t : Topology) : ℕ := t.endpoints.length

def index2Endpoint (t : Topology) (i : ℕ) : ℕ := t.endpoints.getD i 0

/-- The search of `endpoint2Index`. -/
def endpoint2Index (t : Topology) (e : ℕ) : ℕ := t.endpoints.idxOf e

instance : Membership ℕ Topology := ⟨fun t e => e ∈ t.endpoints⟩

instance (t : Topology) (e : ℕ) : Decidable (e ∈ t) := inferInstanceAs (Decidable (e ∈ t.endpoints))

variable {t : Topology} {e : ℕ}

theorem endpoint2Index_lt (h : e ∈ t) : t.endpoint2Index e < t.size := idxOf_lt_length_of_mem h

theorem size_pos (h : e ∈ t) : 0<t.size := length_pos_of_mem h

theorem index2Endpoint_mem {i : ℕ} (h : i<t.size) : t.index2Endpoint i ∈ t := by
  rw [index2Endpoint,getD_eq_getElem _ _ h]
  exact getElem_mem h

theorem index2Endpoint_endpoint2Index (h : e ∈ t) : t.index2Endpoint (t.endpoint2Index e) = e := by
  rw [index2Endpoint,getD_eq_getElem _ _ (endpoint2Index_lt h)]
  exact getElem_idxOf _

theorem endpoint2Index_index2Endpoint {i : ℕ} (h : i<t.size) :
    t.endpoint2Index (t.index2Endpoint i) = i := by
  rw [index2Endpoint,getD_eq_getElem _ _ h]
  exact t.nodup.idxOf_getElem i h

theorem sum_places {M : Type*} [AddCommMonoid M] (t : Topology) (v : ℕ → M) {f g : ℕ → ℕ}
    (hf : ∀ i<t.size, f i ∈ t) (hg : ∀ e ∈ t, g e < t.size) (hgf : ∀ i<t.size, g (f i) = i)
    (hfg : ∀ e ∈ t, f (g e) = e) :
    ∑ i ∈ Finset.range t.size, v (f i) = (t.endpoints.map v).sum := by
  rw [← sum_toFinset v t.nodup]
  apply Finset.sum_nbij' f g
  · intro i hi
    exact mem_toFinset.mpr (hf i (Finset.mem_range.mp hi))
  · intro e he
    exact Finset.mem_range.mpr (hg e (mem_toFinset.mp he))
  · intro i hi
    exact hgf i (Finset.mem_range.mp hi)
  · intro e he
    exact hfg e (mem_toFinset.mp he)
  · intro i _
    rfl

end Topology

/-- A `TopologyMap`: the place of an endpoint and of the root in the topology. -/
structure TopologyMap where
  topology : Topology
  hnranks : ℕ
  rootindex : ℕ
  myindex : ℕ

namespace TopologyMap

/-- The constructor; its loop halves the size down to one, so it counts `Nat.log2` of it. -/
def new (myendpoint : ℕ) (topology : Topology) : TopologyMap where
  topology := topology
  hnranks := 1 <<< topology.size.log2
  rootindex := 0
  myindex := topology.endpoint2Index myendpoint

def setRoot (m : TopologyMap) (gr : ℕ) : TopologyMap :=
  { m with rootindex := m.topology.endpoint2Index gr }

def hasAuxPhases (m : TopologyMap) : Bool := m.topology.size &&& (m.topology.size - 1) ≠ 0

def getMyRank (m : TopologyMap) : ℕ :=
  if m.rootindex ≤ m.myindex then m.myindex - m.rootindex
  else m.myindex + m.topology.size - m.rootindex

def isAuxProc (m : TopologyMap) : Bool := m.hnranks ≤ m.getMyRank

def isPeerProc (m : TopologyMap) : Bool := m.getMyRank < m.topology.size - m.hnranks

def getAuxForPeer (m : TopologyMap) : List ℕ := [m.getMyRank + m.hnranks]

def getPeerForAux (m : TopologyMap) : ℕ := m.getMyRank - m.hnranks

/-- The endpoint of a rank relative to the root. -/
def getGlobalRank (m : TopologyMap) (relrank : ℕ) : ℕ :=
  let r := relrank + m.rootindex
  m.topology.index2Endpoint (if m.topology.size ≤ r then r - m.topology.size else r)

def getNumRanks (m : TopologyMap) : ℕ := m.topology.size

section Relative

variable {t : Topology} {root e : ℕ}

/-- The map of an endpoint with respect to a root index. -/
def rooted (t : Topology) (root e : ℕ) : TopologyMap := { new e t with rootindex := root }

theorem getMyRank_rooted : (rooted t root e).getMyRank =
    if root ≤ t.endpoint2Index e then t.endpoint2Index e-root
    else t.endpoint2Index e+t.size-root := rfl

theorem getGlobalRank_rooted (r : ℕ) : (rooted t root e).getGlobalRank r =
    t.index2Endpoint (if t.size ≤ r+root then r+root-t.size else r+root) := rfl

theorem getMyRank_lt (hrt : root<t.size) (he : e ∈ t) :
    (rooted t root e).getMyRank<t.size := by
  have hi := Topology.endpoint2Index_lt he
  rw [getMyRank_rooted]
  split_ifs <;> omega

theorem getGlobalRank_getMyRank (hrt : root<t.size) {e' : ℕ} (he : e ∈ t) :
    (rooted t root e').getGlobalRank (rooted t root e).getMyRank = e := by
  have hi := Topology.endpoint2Index_lt he
  have hidx : (if t.size≤(rooted t root e).getMyRank+root then
      (rooted t root e).getMyRank+root-t.size else (rooted t root e).getMyRank+root)=t.endpoint2Index e := by
    rw [getMyRank_rooted]
    split_ifs <;> omega
  rw [getGlobalRank_rooted,hidx]
  exact Topology.index2Endpoint_endpoint2Index he

theorem getGlobalRank_mem (hrt : root<t.size) {r : ℕ} (hr : r<t.size) :
    (rooted t root e).getGlobalRank r ∈ t := by
  rw [getGlobalRank_rooted]
  apply Topology.index2Endpoint_mem
  split_ifs <;> omega

theorem getMyRank_getGlobalRank (hrt : root<t.size) {r : ℕ} (hr : r<t.size) :
    (rooted t root ((rooted t root e).getGlobalRank r)).getMyRank=r := by
  have hidx : (if t.size ≤ r+root then r+root-t.size else r+root)<t.size := by
    split_ifs <;> omega
  rw [getMyRank_rooted,getGlobalRank_rooted,Topology.endpoint2Index_index2Endpoint hidx]
  split_ifs <;> omega

end Relative

end TopologyMap

end PAMI.Schedule
