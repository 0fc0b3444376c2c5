import PAMI.WorkQueue.FlatQueue

namespace PAMI.WorkQueue

open PAMI.Datatype PipeWorkQueue Option
open PAMI.Math (Layout)

section Configure

theorem contig_window {s : Word} (hs : s≠0) (o n : ℕ) :
    (contigCode s).layout.window o n = (⟨(o : Word),n⟩ : Layout.Extent Word).cells := by
  simp only [Layout.window,contigCode_cell hs,Layout.Extent.cells,Nat.cast_add]

variable {contigMax : TypeCode} {bufsize bufinit : Word} {q q' : PipeWorkQueue}
  {dt : Option TypeCode} {x : Layout Word Word} {tm : Option TypeMachine}

theorem configureView_spec (hdt : Sees dt x)
    (hda : 0<x.items.length ∧ x.items.length<2^64)
    (h : configureView contigMax bufsize bufinit q dt = some (q', tm)) :
    (tm=none → q'=q ∧ ∀ o n : ℕ, x.window o n = (⟨(o : Word),n⟩ : Layout.Extent Word).cells) ∧
    ∀ t, tm = some t → q'.pmask = BitVec.allOnes 32 ∧ ∃ c, On True t c 0 ∧ c.layout=x := by
  cases dt with
  | none =>
    obtain ⟨rfl,rfl⟩ := Prod.mk.inj (some.inj h)
    refine ⟨fun _ => ⟨rfl,fun o n => ?_⟩,fun _ hc => by cases hc⟩
    have hx : x=(contigCode 1).layout := by
      rw [contigCode,Code.layout_copy,Code.layout_done,mul_one,show (1 : Word).toNat=1 from rfl,pow_one]
      exact hdt
    rw [hx]
    exact contig_window (by decide) o n
  | some dt =>
    obtain ⟨c,hrep,rfl⟩ := hdt
    have hcon : dt.isContiguous=c.isContiguous := hrep.header.contiguous
    rw [configureView] at h
    split_ifs at h with hc
    · obtain ⟨rfl,rfl⟩ := Prod.mk.inj (some.inj h)
      refine ⟨fun _ => ⟨rfl,fun o n => ?_⟩,fun _ hc => by cases hc⟩
      rw [hcon] at hc
      have hone : (1 : Word)≠0 := by decide
      rw [← machineCode_window hrep.wf hone,machineCode,if_pos hc]
      exact contig_window hone o n
    · obtain ⟨rfl,rfl⟩ := Prod.mk.inj (some.inj h)
      refine ⟨fun hnn => (by cases hnn),fun t ht => ⟨rfl,c,?_,rfl⟩⟩
      obtain rfl := some.inj ht
      have hnew : TypeMachine.new contigMax dt = ⟨dt,[⟨64,0,0,0,0⟩]⟩ := by rw [TypeMachine.new,if_neg hc]
      have hw : True → c.NoWrap := fun _ => Code.noWrap_of_size hrep.wf hda.2
      rw [hnew]
      exact ⟨hrep,hw,_,[],0,0,rfl,tracks_start hrep hw,by simp⟩

theorem configureFlat_spec {dt : Side → Option TypeCode} {x : Side → Layout Word Word}
    (hdt : ∀ side, Sees (dt side) (x side))
    (hda : ∀ side, 0<(x side).items.length ∧ (x side).items.length<2^64)
    (h : Returns (fun fuel => configureFlat contigMax fuel bufsize bufinit
      (dt .producer) (dt .consumer) q) q') (hin : q'.isize≤q'.qsize) :
    IsFlat x q' ∧ q'.bytesOf .producer = q'.isize.setWidth 64 ∧ q'.bytesOf .consumer = 0 := by
  obtain ⟨q1,hq1⟩ : ∃ q1, q1 = { q with
    qsize := bufsize.setWidth 32, isize := bufinit.setWidth 32, pmask := 0 } := ⟨_,rfl⟩
  simp only [configureFlat,← hq1] at h
  obtain ⟨⟨q2,prodTm⟩,hprod⟩ : ∃ r, configureView contigMax bufsize bufinit q1
      (dt .producer) = some r := by
    obtain ⟨n,hn⟩ := h
    obtain ⟨r,hr,-⟩ := bind_eq_some_iff.mp (hn n (le_refl n))
    exact ⟨r,hr⟩
  simp only [hprod,bind_some] at h
  obtain ⟨⟨q3,consTm⟩,hcons⟩ : ∃ r, configureView contigMax bufsize bufinit q2
      (dt .consumer) = some r := by
    obtain ⟨n,hn⟩ := h
    obtain ⟨r,hr,-⟩ := bind_eq_some_iff.mp (hn n (le_refl n))
    exact ⟨r,hr⟩
  simp only [hcons,bind_some] at h
  obtain ⟨hmem1,hmach1⟩ := configureView_spec (hdt .producer) (hda .producer) hprod
  obtain ⟨hmem2,hmach2⟩ := configureView_spec (hdt .consumer) (hda .consumer) hcons
  have hisi : (q3.isize.setWidth 64).toNat=q3.isize.toNat := by
    have hlt := q3.isize.isLt
    rw [BitVec.toNat_setWidth]
    omega
  have hlt := q3.isize.isLt
  obtain ⟨prodTm',hret1,hnn1,hon1⟩ := moveTo_spec (hda .producer) (show 0<2^64 by decide)
    (fun t ht => (hmach1 t ht).2) (o := q3.isize.setWidth 64) (by omega)
  obtain ⟨consTm',hret2,hnn2,hon2⟩ := moveTo_spec (hda .consumer) (show 0<2^64 by decide)
    (fun t ht => (hmach2 t ht).2) (o := 0) (by decide)
  obtain rfl := h.unique (hret1.bind (hret2.map _))
  refine ⟨⟨Nat.zero_le _,?_,?_,?_,?_⟩,rfl,rfl⟩
  · show (q3.isize.setWidth 64).toNat≤q3.qsize.toNat
    rw [hisi]
    exact hin
  · show q3.pmask=0 ∧ _ ∨ q3.pmask=BitVec.allOnes 32
    cases hc : consTm with
    | some t => exact .inr (hmach2 t hc).1
    | none =>
      rw [(hmem2 hc).1]
      cases hp : prodTm with
      | some t => exact .inr (hmach1 t hp).1
      | none =>
        refine .inl ⟨by rw [(hmem1 hp).1,hq1],fun side => ?_⟩
        cases side with
        | producer => exact hnn1.mpr hp
        | consumer => exact hnn2.mpr hc
  · intro side hside
    cases side with
    | producer => exact (hmem1 (hnn1.mp hside)).2
    | consumer => exact (hmem2 (hnn2.mp hside)).2
  · intro side t ht
    cases side with
    | producer => exact hon1 t ht
    | consumer => exact hon2 t ht

end Configure

section Runs

variable {x : Side → Layout Word Word} {ok : PipeWorkQueue → Side → Prop} {q0 : PipeWorkQueue}
  {s : Client}

theorem Client.Run.isFlat (hda : ∀ side, 0<(x side).items.length ∧ (x side).items.length<2^64)
    (h0 : IsFlat x q0) (h : Client.Run ok q0 s) :
    IsFlat x s.queue ∧ s.queue.qsize=q0.qsize ∧ ∀ side, (q0.bytesOf side).toNat≤(s.queue.bytesOf side).toNat := by
  induction h with
  | start => exact ⟨h0,rfl,fun _ => le_refl _⟩
  | ask h ha ih =>
    obtain ⟨hflat,hsi,hle⟩ := ih
    obtain ⟨a,asked,hret,hflat',hbyt,hsi',-⟩ := hflat.bytesAvailable_spec (fun side => (hda side).1) _
    obtain ⟨rfl,rfl⟩ := Prod.mk.inj (ha.unique hret)
    refine ⟨hflat',hsi'.trans hsi,fun side => ?_⟩
    rw [hbyt]
    exact hle side
  | move h _ ha hn hm ih =>
    obtain ⟨hflat,hsi,hle⟩ := ih
    obtain ⟨a,asked,hret,-,-,-,hlf,-⟩ := hflat.bytesAvailable_spec (fun side => (hda side).1) _
    obtain ⟨rfl,rfl⟩ := Prod.mk.inj (ha.unique hret)
    obtain ⟨tm,hret',hflat'⟩ := hflat.advance_spec hda (BitVec.le_trans hn hlf)
    have hadd := hflat.bytesOf_add (BitVec.le_trans hn hlf)
    obtain rfl := hm.unique hret'
    refine ⟨hflat',by rw [moved_qsize,hsi],fun side => ?_⟩
    rw [moved_bytesOf]
    have hside := hle side
    split_ifs with he
    · rw [hadd.1,← he]
      omega
    · exact hside

theorem Exposes.of_le {x : Layout Word Word} {o : ℕ} {disp a n : Word} (h : Exposes x o disp a)
    (hn : n≤a) : Exposes x o disp n := by
  obtain ⟨k,hk⟩ := Nat.exists_eq_add_of_le (BitVec.le_def.mp hn)
  rw [Exposes,hk,Layout.Extent.cells_add,Layout.window_add] at h
  exact List.append_inj_left h (by rw [Layout.Extent.cells_length,Layout.window_length])

theorem Client.Run.touched (hda : ∀ side, 0<(x side).items.length ∧ (x side).items.length<2^64)
    (h0 : IsFlat x q0) (h : Client.Run PipeWorkQueue.IsStraight q0 s) (side : Side) :
    s.touched side = (x side).window (q0.bytesOf side).toNat
      ((s.queue.bytesOf side).toNat-(q0.bytesOf side).toNat) := by
  induction h with
  | start =>
    rw [Nat.sub_self]
    rfl
  | ask h ha ih =>
    obtain ⟨hflat,-⟩ := h.isFlat hda h0
    obtain ⟨a,asked,hret,-,hbyt,-⟩ := hflat.bytesAvailable_spec (fun side => (hda side).1) _
    obtain ⟨rfl,rfl⟩ := Prod.mk.inj (ha.unique hret)
    rw [hbyt]
    exact ih
  | @move s moving a n asked moved h hok ha hn hm ih =>
    obtain ⟨hflat,-,hle⟩ := h.isFlat hda h0
    obtain ⟨a,asked,hret,-,-,-,hlf,-,hiff⟩ := hflat.bytesAvailable_spec (fun side => (hda side).1) moving
    obtain ⟨rfl,rfl⟩ := Prod.mk.inj (ha.unique hret)
    obtain ⟨tm,hret',-⟩ := hflat.advance_spec hda (BitVec.le_trans hn hlf)
    have hadd := hflat.bytesOf_add (BitVec.le_trans hn hlf)
    obtain rfl := hm.unique hret'
    rw [moved_bytesOf]
    by_cases he : side=moving
    · subst he
      have hcel := (hiff.mpr hok).1.of_le hn
      have hside := hle side
      simp only [if_true,Function.update_self]
      rw [ih,hcel,hadd.1,Nat.sub_add_comm hside,Layout.window_add]
      congr 2
      omega
    · simp only [if_neg he,Function.update_of_ne he]
      exact ih

/-- In every run a side is offered some bytes unless nothing is left to it, and they are the next cells of the layout exactly
if the queue is straight at each place where the client reads the location. Then all cells are touched in order. -/
theorem layout_exposed_iff {contigMax : TypeCode} {bufsize bufinit : Word} {q : PipeWorkQueue}
    {dt : Side → Option TypeCode} (hdt : ∀ side, Sees (dt side) (x side))
    (hda : ∀ side, 0 < (x side).items.length ∧ (x side).items.length < 2^64)
    (hq : Returns (fun fuel => configureFlat contigMax fuel bufsize bufinit
      (dt .producer) (dt .consumer) q) q0) (hin : q0.isize ≤ q0.qsize) :
    (∀ ok s, Client.Run ok q0 s → ∀ side, ∃ a asked,
      Returns (fun fuel => s.queue.bytesAvailable fuel side) (a, asked) ∧ (a = 0 → s.queue.bytesLeft side = 0) ∧
        (Exposes (x side) (s.queue.bytesOf side).toNat (s.queue.bufferTo side) a ∧
          Exposes (x side) (s.queue.bytesOf side).toNat (asked.bufferTo side) a ↔ s.queue.IsStraight side)) ∧
    ∀ s, Client.Run PipeWorkQueue.IsStraight q0 s → ∀ side, s.touched side = (x side).window (q0.bytesOf side).toNat
        ((s.queue.bytesOf side).toNat - (q0.bytesOf side).toNat) ∧
      ((∀ side', ∃ asked, Returns (fun fuel => s.queue.bytesAvailable fuel side') (0, asked)) →
        packedSize (x side) bufsize = q0.qsize.toNat → s.touched side = (x side).window (q0.bytesOf side).toNat
            (packedSize (x side) bufsize - (q0.bytesOf side).toNat)) := by
  obtain ⟨h0,-⟩ := configureFlat_spec hdt hda hq hin
  refine ⟨fun ok s hrun side => ?_,fun s hrun side => ⟨hrun.touched hda h0 side,?_⟩⟩
  · obtain ⟨hflat,-⟩ := hrun.isFlat hda h0
    obtain ⟨a,asked,hret,-,-,-,-,hzr,hiff⟩ := hflat.bytesAvailable_spec (fun side => (hda side).1) side
    exact ⟨a,asked,hret,hzr,hiff⟩
  · intro hend hsi
    obtain ⟨hflat,hqsi,-⟩ := hrun.isFlat hda h0
    have hlf (side' : Side) : (s.queue.bytesLeft side').toNat=0 := by
      obtain ⟨a,asked,hret,-,-,-,-,hzr,-⟩ := hflat.bytesAvailable_spec (fun side => (hda side).1) side'
      obtain ⟨asked',hret'⟩ := hend side'
      obtain ⟨rfl,-⟩ := Prod.mk.inj (hret.unique hret')
      rw [hzr rfl]
      rfl
    have hpro := hlf .producer
    have hcns := hlf .consumer
    rw [hflat.bytesLeft_producer] at hpro
    rw [hflat.bytesLeft_consumer] at hcns
    have hp := hflat.produced
    have hc := hflat.consumed
    have hall : (s.queue.bytesOf side).toNat=q0.qsize.toNat := by
      rw [← hqsi]
      cases side with
      | producer =>
        show s.queue.producedBytes.toNat = _
        omega
      | consumer =>
        show s.queue.consumedBytes.toNat = _
        omega
    rw [hrun.touched hda h0 side,hall,hsi]

/-- Two strided blocks of four bytes, as the machine of a side sees them at first. -/
def twoBlocksMachine : TypeMachine := ⟨twoBlocksType, [⟨64, 0, 0, 0, 0⟩]⟩

def twoBlocksQueue (prodTm : Option TypeMachine) : PipeWorkQueue :=
  ⟨8, 0, BitVec.allOnes 32, 0, 0, prodTm, some twoBlocksMachine⟩

theorem configureView_twoBlocks (q : PipeWorkQueue) :
    configureView contigMaxType 16 0 q (some twoBlocksType) =
      some ({ q with pmask := BitVec.allOnes 32, qsize := 8, isize := 0 }, some twoBlocksMachine) := by
  have hcon : twoBlocksType.isContiguous=false := by decide
  have hext : twoBlocksType.getExtent=16 := by decide
  have hsi : twoBlocksType.getDataSize=8 := by decide
  simp only [configureView,TypeMachine.new,hcon,hext,hsi]
  rfl

theorem configureView_none (q : PipeWorkQueue) (contigMax : TypeCode) (bufsize bufinit : Word) :
    configureView contigMax bufsize bufinit q none = some (q, none) := rfl

theorem moveTo_twoBlocks (fuel : ℕ) :
    moveTo fuel 0 (some twoBlocksMachine) = some (some twoBlocksMachine) := by
  rw [moveTo,TypeMachine.moveCursor,if_pos (by decide)]
  rfl

theorem twoBlocks_layout : ∃ c, Represents twoBlocksType c ∧ c.layout = naive (fun _ => 1) twoBlocks :=
  twoBlocksType_compiled.represents

/-- A buffer that is plain memory to the producer. -/
def consumerType : Side → Option TypeCode
  | .producer => none
  | .consumer => some twoBlocksType

def consumerLayout (c : Code) : Side → Layout Word Word
  | .producer => Layout.block 1 1
  | .consumer => c.layout

theorem layout_exposed_twoBlocks : ∃ c s, Represents twoBlocksType c ∧
    Client.Run PipeWorkQueue.IsStraight (twoBlocksQueue none) s ∧
    s.touched .producer = (consumerLayout c .producer).window 0 4 ∧
    ∃ a asked, Returns (fun fuel => s.queue.bytesAvailable fuel .consumer) (a, asked) ∧
      (a = 0 → s.queue.bytesLeft .consumer = 0) ∧
      (Exposes c.layout 0 (s.queue.bufferTo .consumer) a ∧
        Exposes c.layout 0 (asked.bufferTo .consumer) a ↔ s.queue.IsStraight .consumer) := by
  obtain ⟨c,hrep,hlay⟩ := twoBlocks_layout
  have hdt (side : Side) : Sees (consumerType side) (consumerLayout c side) := by
    cases side with
    | producer => rfl
    | consumer => exact ⟨c,hrep,rfl⟩
  have hda (side : Side) : 0<(consumerLayout c side).items.length ∧
      (consumerLayout c side).items.length<2^64 := by
    cases side with
    | producer => exact ⟨Nat.one_pos,by simp [consumerLayout]⟩
    | consumer =>
      simp only [consumerLayout,hlay]
      decide
  have hq : Returns (fun fuel => configureFlat contigMaxType fuel 16 0
      (consumerType .producer) (consumerType .consumer) .new) (twoBlocksQueue none) := by
    refine ⟨0,fun fuel _ => ?_⟩
    simp only [consumerType,configureFlat,configureView_none,bind_some,configureView_twoBlocks,moveTo_twoBlocks]
    rfl
  have hrun : Client.Run PipeWorkQueue.IsStraight (twoBlocksQueue none)
      ⟨(twoBlocksQueue none).moved 4 none .producer,Function.update (fun _ => []) .producer
        ([] ++ (⟨0,4⟩ : Layout.Extent Word).cells)⟩ := by
    have hava : Returns (fun fuel => (twoBlocksQueue none).bytesAvailable fuel .producer)
        (8, twoBlocksQueue none) := ⟨0,fun _ _ => rfl⟩
    have hadv : Returns (fun fuel => (twoBlocksQueue none).advance fuel 4 .producer)
        ((twoBlocksQueue none).moved 4 none .producer) := ⟨0,fun _ _ => rfl⟩
    exact .move .start (fun tm htm => by cases htm) hava (by decide) hadv
  have hexp := layout_exposed_iff hdt hda hq (by decide)
  exact ⟨c,_,hrep,hrun,(hexp.2 _ hrun .producer).1,hexp.1 _ _ hrun .consumer⟩

/-- The repetitions of a strided copy are offered as if they were contiguous: eight bytes, of
which the layout has the first four. -/
theorem layout_not_exposed : ∃ c a asked, Represents twoBlocksType c ∧
    Returns (fun fuel => configureFlat contigMaxType fuel 16 0 (some twoBlocksType)
      (some twoBlocksType) .new) (twoBlocksQueue (some twoBlocksMachine)) ∧
    Returns (fun fuel => (twoBlocksQueue (some twoBlocksMachine)).bytesAvailable fuel .producer) (a, asked) ∧
    a = 8 ∧ asked.bufferTo .producer = 0 ∧ ¬ Exposes c.layout 0 0 8 := by
  obtain ⟨c,hrep,hlay⟩ := twoBlocks_layout
  refine ⟨c,8,twoBlocksQueue (some twoBlocksMachine),hrep,⟨0,fun fuel _ => ?_⟩,
    ⟨1,fun fuel hf => ?_⟩,rfl,by decide,?_⟩
  · simp only [configureFlat,bind_some,configureView_twoBlocks,moveTo_twoBlocks]
    rfl
  · obtain ⟨fuel,rfl⟩ : ∃ k, fuel=k + 1 := ⟨fuel - 1,by omega⟩
    rfl
  · rw [Exposes,hlay]
    decide

end Runs

end PAMI.WorkQueue
