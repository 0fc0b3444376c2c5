import PAMI.Datatype.RandomAccess
import PAMI.WorkQueue.PipeWorkQueue

namespace PAMI.WorkQueue

open PAMI.Datatype PAMI.Math.Layout.Extent List BitVec
open PAMI.Math (Layout)

section Settled

variable {code : Memory} {s s' : List Cursor} {n : ℕ}

theorem getContigBytes_settles (h : Settles code s s' n) (fuel : ℕ) :
    getContigBytes code (fuel+n) s = getContigBytes code fuel s' := by
  induction h with
  | refl => rfl
  | step hrb he _ ih =>
    rw [← add_assoc,getContigBytes]
    simp only [if_neg (execute_not_copy he),he,Option.bind_some]
    exact ih

theorem settles_unique {cur cur' : Cursor} {rest rest' : List Cursor} {m : ℕ}
    (h : Settles code s (cur :: rest) n) (hop : opcodeOf (code cur.pc) = Opcode.COPY.code)
    (h' : Settles code s (cur' :: rest') m) (hop' : opcodeOf (code cur'.pc) = Opcode.COPY.code) :
    cur=cur' := by
  generalize ht : cur :: rest=t at h
  induction h generalizing m with
  | refl =>
    subst ht
    cases h' with
    | refl => rfl
    | step _ he _ => exact absurd hop (execute_not_copy he)
  | step _ he _ ih =>
    cases h' with
    | refl => exact absurd hop' (execute_not_copy he)
    | step _ he' hs' =>
      obtain rfl := Option.some.inj (he.symm.trans he')
      exact ih hs' ht

end Settled

section Straight

variable {cp : Copy} {cur : Cursor}

theorem repCells_length : (repCells cp cur).length =
    (cp.reps.toNat-cur.repNum.toNat)*cp.bytes.toNat-cur.repBytes.toNat := by
  rw [repCells,length_drop,repBlocks_cells_length]

theorem cells_eq_repCells_iff (h : InCopy cp cur) (hs : cp.bytes=cp.stride → cp.reps=1)
    (d : Word) {a : ℕ} (h0 : 0<a) (ha : a≤(repCells cp cur).length) :
    (⟨d,a⟩ : Layout.Extent Word).cells = (repCells cp cur).take a ↔
      d=cur.disp+cur.repBytes ∧ a ≤ cp.bytes.toNat-cur.repBytes.toNat := by
  obtain ⟨m,hm⟩ : ∃ m, m=cp.bytes.toNat-cur.repBytes.toNat := ⟨_,rfl⟩
  have h2 := h.2
  have hcel := repCells_eq h
  rw [← hm] at hcel ⊢
  constructor
  · intro he
    have hget (i : ℕ) (hi : i<a) : (repCells cp cur)[i]? = some (d+(i : Word)) := by
      rw [← List.getElem?_take_of_lt hi,← he]
      simp [cells,hi]
    have hpos : 0 < m := by omega
    have hfir : d=cur.disp+cur.repBytes := by
      have h1 := hget 0 h0
      rw [hcel,List.getElem?_append_left (by rwa [cells_length])] at h1
      simpa [cells,hpos] using h1.symm
    refine ⟨hfir,?_⟩
    by_contra hlt
    -- the byte behind the repetition would be the first of the next one
    have h1 := hget m (by omega)
    have hrep : 0 < cp.reps.toNat-(cur.repNum.toNat+1) := by
      by_contra hz
      rw [show cp.reps.toNat-(cur.repNum.toNat+1)=0 by omega,repBlocks_zero] at hcel
      rw [hcel,flatMap_nil,append_nil,cells_length] at ha
      exact hlt ha
    obtain ⟨r,hr⟩ : ∃ r, cp.reps.toNat-(cur.repNum.toNat+1)=r+1 := ⟨_,(Nat.succ_pred_eq_of_pos hrep).symm⟩
    rw [hcel,hr,repBlocks_succ,flatMap_cons,List.getElem?_append_right (by rw [cells_length]),
      cells_length,Nat.sub_self,
      List.getElem?_append_left (by rw [cells_length]; show 0 < cp.bytes.toNat; omega)]
      at h1
    have hnx : cur.disp+cp.stride=d+(m : Word) := by simpa [cells,show 0 < cp.bytes.toNat by omega] using h1
    have hbyt : cur.repBytes+(m : Word)=cp.bytes := by
      apply eq_of_toNat_eq
      have hb := cp.bytes.isLt
      rw [toNat_add,natCast_eq_ofNat,toNat_ofNat]
      omega
    have hste : cp.bytes=cp.stride := by
      rw [hfir,add_assoc,hbyt] at hnx
      exact (add_left_cancel hnx).symm
    have hone := congrArg BitVec.toNat (hs hste)
    have hnat : (1 : Word).toNat=1 := rfl
    omega
  · rintro ⟨rfl,hle⟩
    obtain ⟨k,rfl⟩ := Nat.exists_eq_add_of_le hle
    rw [hcel,cells_add,List.append_assoc,take_left']
    rw [cells_length]

end Straight

/-- The bytes at a displacement are the cells of the layout from number `o` on. -/
def Exposes (x : Layout Word Word) (o : ℕ) (disp bytes : Word) : Prop :=
  (⟨disp, bytes.toNat⟩ : Layout.Extent Word).cells = x.window o bytes.toNat

/-- Nothing is on offer, or the copy the machine gets to goes on where the cursor is already, at
the start of a repetition, and it is the last one or holds all that is on offer. -/
def Straight (limit : Word) (tm : TypeMachine) : Prop :=
  limit = 0 ∨ ∀ cur rest n, Settles tm.type.code tm.stack (cur :: rest) n →
    opcodeOf (tm.type.code cur.pc) = Opcode.COPY.code → cur.disp = getCursorDisp tm ∧ cur.repBytes = 0 ∧
        (cur.repNum + 1 = (copyAt tm.type.code cur.pc).reps ∨ limit ≤ (copyAt tm.type.code cur.pc).bytes)

/-- The copy that a machine gets to, and the cells it has left. -/
structure Settled (tm : TypeMachine) (c : Code) (o : ℕ) (cur : Cursor) (rest : List Cursor)
    (cp : Copy) : Prop where
  settles : ∃ n, Settles tm.type.code tm.stack (cur :: rest) n
  opcode : opcodeOf (tm.type.code cur.pc) = Opcode.COPY.code
  copy : copyAt tm.type.code cur.pc = cp
  inCopy : InCopy cp cur
  noWrap : cp.reps.toNat * cp.bytes.toNat < 2^64
  stride : cp.bytes = cp.stride → cp.reps = 1
  on : On True ⟨tm.type, cur :: rest⟩ c o
  window : ∀ a ≤ (repCells cp cur).length, c.layout.window o a = (repCells cp cur).take a

theorem settled_of_on {tm : TypeMachine} {c : Code} {o : ℕ} (h : On True tm c o) (hpos : 0 < c.size) :
    ∃ cur rest cp, Settled tm c o cur rest cp := by
  obtain ⟨f,fs,q,j,hst,htr,rfl⟩ := h.position
  obtain ⟨⟨cur,k⟩,gs,q',j',n,hs,htr',hsum,⟨cp,k,rfl⟩,-,-⟩ := htr.settle h.placed hpos
  have hp := htr'.frames.placed _ (mem_cons_self ..)
  have hin : InCopy cp cur := htr'.frames.inRange
  obtain ⟨hop,⟨hb,hstr,hr⟩,-,-⟩ := hp.code
  refine ⟨cur,gs.map Prod.fst,cp,⟨n,by rw [hst]; exact hs⟩,hop,by rw [copyAt,hb,hstr,hr],
    hin,(hp.noWrap trivial).1,hp.wf.2.2.1,
    ⟨h.represents,h.noWrap,(cur, .copy cp k),gs,q',j',rfl,htr',hsum⟩,fun a ha => ?_⟩
  have hcel := htr'.cells
  rw [cellsLeft_copy hin k gs 0 0] at hcel
  have hlen := congrArg List.length hcel
  rw [length_append,length_drop,length_map] at hlen
  have hle := htr'.le
  have hwin := c.layout.window_eq_pass q' j' a (by simp only [Code.size] at hle; omega)
  rw [← hcel,take_append_of_le_length ha] at hwin
  rw [← hsum]
  exact hwin

namespace Settled

variable {tm : TypeMachine} {c : Code} {o : ℕ} {cur : Cursor} {rest : List Cursor} {cp : Copy}
  (h : Settled tm c o cur rest cp)

include h

theorem left_toNat : (cp.bytes*(cp.reps-cur.repNum)-cur.repBytes).toNat=(repCells cp cur).length := by
  rw [bytesLeft_toNat h.inCopy h.noWrap,repCells_length]

theorem length_pos : 0<(repCells cp cur).length := by
  have h1 := h.inCopy.1
  have h2 := h.inCopy.2
  have hge : cp.bytes.toNat≤(cp.reps.toNat-cur.repNum.toNat)*cp.bytes.toNat :=
    Nat.le_mul_of_pos_left _ (by omega)
  rw [repCells_length]
  omega

theorem getContigBytes : Returns (fun fuel => getContigBytes tm.type.code fuel tm.stack)
    (cp.bytes*(cp.reps-cur.repNum)-cur.repBytes, cur :: rest) := by
  obtain ⟨n,hs⟩ := h.settles
  refine ⟨1+n,fun fuel hf => ?_⟩
  obtain ⟨d,rfl⟩ : ∃ d, fuel=d+1+n := ⟨fuel-(1+n),by omega⟩
  have hne : cp.bytes*(cp.reps-cur.repNum)-cur.repBytes≠0 := by
    intro h0
    have hlf := h.left_toNat
    have hpos := h.length_pos
    rw [h0] at hlf
    exact hpos.ne hlf
  show WorkQueue.getContigBytes tm.type.code (d+1+n) tm.stack = _
  rw [getContigBytes_settles hs,WorkQueue.getContigBytes,if_pos h.opcode]
  simp only [h.copy,if_neg hne]

theorem straight_iff {limit : Word} : Straight limit tm ↔ limit=0 ∨ cur.disp = getCursorDisp tm ∧ cur.repBytes=0 ∧
      (cur.repNum+1=cp.reps ∨ limit ≤ cp.bytes) := by
  obtain ⟨n,hs⟩ := h.settles
  have hcp := h.copy
  constructor
  · rintro (h0 | hall)
    · exact .inl h0
    · rw [← hcp]
      exact .inr (hall cur rest n hs h.opcode)
  · rintro (h0 | hc)
    · exact .inl h0
    · refine .inr fun cur' rest' n' hs' hop' => ?_
      obtain rfl := settles_unique hs h.opcode hs' hop'
      rwa [hcp]

theorem offer_le_iff (limit : Word) (hz : cur.repBytes=0) :
    min (repCells cp cur).length limit.toNat ≤ cp.bytes.toNat ↔ cur.repNum+1=cp.reps ∨ limit ≤ cp.bytes := by
  have h1 := h.inCopy.1
  have h2 := h.inCopy.2
  have hsc := repNum_succ h.inCopy
  have hzr : (0 : Word).toNat=0 := rfl
  rw [min_le_iff,BitVec.le_def,repCells_length,hz,hzr,Nat.sub_zero]
  rw [hz,hzr] at h2
  apply or_congr_left
  constructor
  · intro hle
    have hone : cp.reps.toNat-cur.repNum.toNat≤1 := Nat.le_of_mul_le_mul_right (by rwa [one_mul]) h2
    exact eq_of_toNat_eq (by omega)
  · intro he
    rw [← he,hsc,Nat.add_sub_cancel_left,one_mul]

theorem exposes_iff {limit a : Word} (ha : a.toNat = min (repCells cp cur).length limit.toNat) :
    Exposes c.layout o (getCursorDisp tm) a ∧ Exposes c.layout o cur.disp a ↔ Straight limit tm := by
  have hlen := h.length_pos
  rw [h.straight_iff]
  by_cases h0 : limit=0
  · have hnn : a.toNat=0 := by rw [ha,h0]; simp
    simp [Exposes,hnn,h0,cells]
  · have hpos : 0<a.toNat := by
      have hl := toNat_pos h0
      omega
    have hle : a.toNat≤(repCells cp cur).length := by omega
    have hiff (d : Word) := cells_eq_repCells_iff h.inCopy h.stride d hpos hle
    simp only [Exposes,h.window _ hle,hiff,h0,false_or]
    constructor
    · rintro ⟨⟨hd,-⟩,hd',hfit⟩
      have hz : cur.repBytes=0 := (left_eq_add.mp hd')
      rw [hz,show (0 : Word).toNat=0 from rfl,Nat.sub_zero,ha,h.offer_le_iff limit hz] at hfit
      rw [hz,add_zero] at hd
      exact ⟨hd.symm,hz,hfit⟩
    · rintro ⟨hd,hz,hfit⟩
      rw [← h.offer_le_iff limit hz,← ha] at hfit
      rw [← hd,hz,add_zero,show (0 : Word).toNat=0 from rfl,Nat.sub_zero]
      exact ⟨⟨rfl,hfit⟩,rfl,hfit⟩

end Settled

theorem contiguous_spec {tm : TypeMachine} {c : Code} {o : ℕ} (h : On True tm c o) (hpos : 0 < c.size)
    (limit : Word) :
    ∃ a tm', Returns (fun fuel => PipeWorkQueue.contiguous fuel limit tm) (a, tm') ∧ On True tm' c o ∧
      a≤limit ∧ (a=0 → limit=0) ∧
      (Exposes c.layout o (getCursorDisp tm) a ∧ Exposes c.layout o (getCursorDisp tm') a ↔ Straight limit tm) := by
  obtain ⟨cur,rest,cp,hset⟩ := settled_of_on h hpos
  have hlen := hset.length_pos
  have hlf := hset.left_toNat
  have hret := hset.getContigBytes
  obtain ⟨left,hl⟩ : ∃ l, l=cp.bytes*(cp.reps-cur.repNum)-cur.repBytes := ⟨_,rfl⟩
  rw [← hl] at hlf hret
  obtain ⟨a,ha⟩ : ∃ a, a = if left<limit then left else limit := ⟨_,rfl⟩
  have hmin : a.toNat=min (repCells cp cur).length limit.toNat := by
    rw [ha]
    split_ifs with hlt
    · rw [lt_def] at hlt
      omega
    · rw [lt_def] at hlt
      omega
  refine ⟨a,⟨tm.type,cur :: rest⟩,?_,hset.on,?_,?_,hset.exposes_iff hmin⟩
  · rw [ha]
    exact hret.map _
  · rw [BitVec.le_def]
    omega
  · intro h0
    rw [h0,show (0 : Word).toNat=0 from rfl] at hmin
    exact eq_of_toNat_eq (by rw [show (0 : Word).toNat=0 from rfl]; omega)

end PAMI.WorkQueue
