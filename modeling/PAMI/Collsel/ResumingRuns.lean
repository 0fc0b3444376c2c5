import PAMI.Collsel.Lookup
import PAMI.Collsel.Resuming

namespace PAMI.Collsel

open Std PAMI.Math Function Advisor AdvisorParams Measuring List Nat Option

variable {P : Platform} {c : Configuration} {d d' d1 : Advisor} {es : List Event} {i n : ℕ}

theorem run_spec {m : ℕ → Measurement} (hc : ∀ c, .message c ∈ es → Complete P c) (hw : Written P d.files)
    (hrun : d.run P m es = some d1) : Keeps d.files d1.files ∧
      ∀ d' m', Agree d d' → (∀ c, .message c ∈ es → d'.files c = d1.files c) →
        ∃ d1', d'.run P m' es = some d1' ∧ Agree d1 d1' := by
  induction es generalizing d with
  | nil =>
    obtain rfl := some.inj hrun
    refine ⟨fun _ _ hfile _ => hfile,?_⟩
    intro d' m' h _
    exact ⟨d',rfl,h⟩
  | cons e es ih =>
    obtain ⟨d2,hsp,hrun⟩ := bind_eq_some_iff.mp hrun
    obtain ⟨-,hw2,hkee2,haga2⟩ := step_spec (fun c heq => hc c (heq ▸ mem_cons_self)) hw hsp
    obtain ⟨hkee1,haga1⟩ := ih (fun c hmem => hc c (mem_cons_of_mem e hmem)) hw2 hrun
    refine ⟨hkee2.trans hkee1,?_⟩
    intro d' m' h hfil
    obtain ⟨d2',hsp',h2,hfil2⟩ := haga2 d' (m' es.length) h (by
      intro c records file heq hhol
      rw [hfil c (heq ▸ mem_cons_self)]
      exact hkee1 c file hhol.file_eq hhol.accepted)
    obtain ⟨d1',hrun',h1⟩ := haga1 d2' m' h2 (by
      intro c hmem
      rw [hfil2]
      exact hfil c (mem_cons_of_mem e hmem))
    exact ⟨d1',bind_eq_some_iff.mpr ⟨d2',hsp',hrun'⟩,h1⟩

/-- A run of some loops can be resumed: a run of the same loops that finds its checkpoint files records the same lists,
whatever it would measure itself and whatever the array held at its start. -/
def Resumes (P : Platform) (es : List Event) : Prop := ∀ m m' algo_list algo_list' files, Written P files →
    ∃ d, (start algo_list files).run P m es = some d ∧ ∀ files', (∀ c, .message c ∈ es → files' c = d.files c) →
        ∃ d', (start algo_list' files').run P m' es = some d' ∧ d'.ppn_map = d.ppn_map

theorem Fitting.take {names : ℕ → NameTable} (h : Fitting P es names) (k : ℕ) : Fitting P (es.take k) names := by
  induction es generalizing k names with
  | nil =>
    rw [take_nil]
    trivial
  | cons e es ih =>
    cases k with
    | zero => trivial
    | succ k => exact ⟨h.1,ih h.2 k⟩

section Ids

structure SmallIds (coll_xfer_type k : ℕ) (d : Advisor) : Prop where
  table : ∀ e ∈ (d.names coll_xfer_type).algo_name_map, e.2 < (d.names coll_xfer_type).algo_ids
  algo_ids : (d.names coll_xfer_type).algo_ids ≤ k
  algo_list : ∀ j, (d.algo_list j).algo_id ≤ k

variable {coll_xfer_type k : ℕ} {algo_name : Text} {times : Times}

theorem SmallIds.enter (h : SmallIds coll_xfer_type k d) :
    SmallIds coll_xfer_type (k+1) (d.enter coll_xfer_type i algo_name times) := by
  have hids := h.algo_ids
  have hli : ∀ id≤k, ∀ j, (update d.algo_list i ⟨algo_name,id,times⟩ j).algo_id≤k+1 := by
    intro id hid j
    by_cases hj : j=i
    · rw [hj,update_self]
      exact hid.trans (le_succ k)
    · rw [update_of_ne hj]
      exact (h.algo_list j).trans (le_succ k)
  cases hfind : (d.names coll_xfer_type).algo_name_map.lookup algo_name with
  | some id =>
    obtain ⟨before,after,hspl,-⟩ := lookup_eq_some_iff.mp hfind
    have hid := h.table (algo_name, id) (hspl ▸ mem_append_right before mem_cons_self)
    constructor
    · simp only [Advisor.enter,NameTable.find,hfind,update_self]
      exact h.table
    · simp only [Advisor.enter,NameTable.find,hfind,update_self]
      exact hids.trans (le_succ k)
    · simp only [Advisor.enter,NameTable.find,hfind]
      exact hli id (hid.le.trans hids)
  | none =>
    constructor
    · simp only [Advisor.enter,NameTable.find,hfind,update_self]
      intro e he
      cases mem_cons.mp he with
      | inl heq => exact heq ▸ lt_succ_self _
      | inr he => exact (h.table e he).trans (lt_succ_self _)
    · simp only [Advisor.enter,NameTable.find,hfind,update_self]
      exact succ_le_succ hids
    · simp only [Advisor.enter,NameTable.find,hfind]
      exact hli _ hids

variable {m : Measurement} {as : List Algorithm} {s : Measuring}

end Ids

section Stale

variable {m : Measurement} {records : List AlgoRecord} {coll_xfer_type : ℕ}

def AdvisorParams.single (c : Configuration) : AdvisorParams where
  procs_per_node := [c.procs_per_node]
  geometry_sizes := [c.geometry_size]
  collectives := [c.collective]
  act_msg_size := fun _ _ => [c.message_size]

/-- What the store holds when the message size is reached. -/
def AdvisorParams.begun (c : Configuration) : GeometryShapeMap Text :=
  let begin_ppn := (∅ : GeometryShapeMap Text).insert c.procs_per_node ((∅ : GeometryShapeMap Text).getD c.procs_per_node ∅)
  let geo_map := begin_ppn.getD c.procs_per_node ∅
  let begin_geo := begin_ppn.insert c.procs_per_node (geo_map.insert c.geometry_size (geo_map.getD c.geometry_size ∅))
  let geo_map := begin_geo.getD c.procs_per_node ∅
  let coll_map := geo_map.getD c.geometry_size ∅
  let coll_map := coll_map.insert c.collective (coll_map.getD c.collective ∅)
  begin_geo.insert c.procs_per_node (geo_map.insert c.geometry_size coll_map)

theorem run_single (m : ℕ → Measurement) (algo_list : ℕ → SortedList) (files : Configuration → Option Text) :
    (start algo_list files).run P m ((single c).generate.take 4) =
      message P c (m 0) { start algo_list files with ppn_map := begun c } := by
  change (message P c (m 0) { start algo_list files with
    ppn_map := begun c }).bind some = _
  exact Option.bind_fun_some _

end Stale

section Concrete

end Concrete

end PAMI.Collsel
