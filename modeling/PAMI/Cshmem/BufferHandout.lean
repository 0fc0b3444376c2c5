import PAMI.Cshmem.BufferPools

namespace PAMI.Cshmem

open PAMI.Math CollShm System List Option Function

/-- Where a process is in `getDataBuffer(1)` or in `returnDataBuffer`: one shared access lies between
two places. -/
inductive Pc where
  | idle
  | fetchHead
  | readNext (cur : ℕ)
  | swap (cur next : ℕ)
  | fetchAgain
  | readAgain (cur : ℕ)
  | writeNext (cur : ℕ)
  | readChunk (tmp : ℕ)
  | cutChunk (tmp next : ℕ)
  | fetchChunk (tmp next : ℕ)
  | writeChunk (tmp next head : ℕ)
  | oldChunk (tmp next : ℕ)
  | swapChunk (tmp next old : ℕ)
  | walk (tmp : ℕ)
  | fetchReturn (tmp : ℕ)
  | writeReturn (tmp head : ℕ)
  | readReturn (tmp : ℕ)
  | swapReturn (tmp old : ℕ)
  | failed
  deriving DecidableEq

/-- A process: where it is, the data buffers it holds and its count of buffers in use. -/
structure Process where
  pc : Pc
  held : List ℕ
  inUse : ℤ

/-- The shared region and the processes. -/
structure Handout (ι : Type*) where
  shm : CollShm
  proc : ι → Process

/-- A process calls `getDataBuffer(1)`, or `returnDataBuffer` with a buffer it holds, or makes one
step in the call it is in. -/
inductive HandoutEvent (ι : Type*) where
  | get (p : ι)
  | ret (p : ι) (buf : ℕ)
  | step (p : ι)

namespace Process

/-- `getDataBuffer(1)` returns a buffer. -/
def gets (x : Process) (buf : ℕ) : Process := ⟨.idle, buf :: x.held, x.inUse + 1⟩

def goto (x : Process) (pc : Pc) : Process := { x with pc := pc }

/-- `bool_compare_and_swap` of the list head. -/
def compareAndSwap (s : CollShm) (old new : ℕ) : Bool × CollShm :=
  if s.fetch .data = old then (true, s.store (s.list .data) new) else (false, s)

def step (P : Params) (s : CollShm) (x : Process) : Option (CollShm × Process) :=
  match x.pc with
  | .idle => none
  | .failed => none
  | .fetchHead =>
    if s.fetch .data = P.size then
      -- the pool is asked for a chunk, under its lock
      match s.takeChunk P .data with
      | none => some (s, x.goto .failed)
      | some (tmp, s) => some (s, x.goto (.readChunk tmp))
    else some (s, x.goto (.readNext (s.fetch .data)))
  | .readNext cur => some (s, x.goto (.swap cur (s.word cur)))
  | .swap cur nx =>
    match compareAndSwap s cur nx with
    | (true, s) => some (s, x.goto (if cur = P.size then .fetchHead else .writeNext cur))
    | (false, s) => some (s, x.goto .fetchAgain)
  | .fetchAgain =>
    if s.fetch .data = P.size then some (s, x.goto (.swap P.size P.size))
    else some (s, x.goto (.readAgain (s.fetch .data)))
  | .readAgain cur => some (s, x.goto (.swap cur (s.word cur)))
  | .writeNext cur => some (s.store cur P.size, x.gets cur)
  | .readChunk tmp => some (s, x.goto (.cutChunk tmp (s.word tmp)))
  | .cutChunk tmp nx => some (s.store tmp P.size, x.goto (.fetchChunk tmp nx))
  | .fetchChunk tmp nx => some (s, x.goto (.writeChunk tmp nx (s.fetch .data)))
  | .writeChunk tmp nx head =>
    some (s.store (tmp + (P.cnt .data - 1) * P.sizeOf .data) head, x.goto (.oldChunk tmp nx))
  | .oldChunk tmp nx => some (s, x.goto (.swapChunk tmp nx (s.word (tmp + (P.cnt .data - 1) * P.sizeOf .data))))
  | .swapChunk tmp nx old =>
    match compareAndSwap s old nx with
    | (true, s) => some (s, x.gets tmp)
    | (false, s) => some (s, x.goto (.fetchChunk tmp nx))
  | .walk tmp =>
    if s.word tmp = P.size then some (s, x.goto (.fetchReturn tmp))
    else some (s, { x with pc := .walk (s.word tmp), inUse := x.inUse - 1 })
  | .fetchReturn tmp => some (s, x.goto (.writeReturn tmp (s.fetch .data)))
  | .writeReturn tmp head => some (s.store tmp head, x.goto (.readReturn tmp))
  | .readReturn tmp => some (s, x.goto (.swapReturn tmp (s.word tmp)))
  | .swapReturn tmp old =>
    match compareAndSwap s old tmp with
    | (true, s) => some (s, x.goto .idle)
    | (false, s) => some (s, x.goto (.fetchReturn tmp))

end Process

namespace Handout

variable {ι : Type*} [DecidableEq ι] (P : Params)

def setProc (x : Handout ι) (p : ι) (y : Process) : Handout ι :=
  { x with proc := Function.update x.proc p y }

def step (x : Handout ι) : HandoutEvent ι → Option (Handout ι)
  | .get p => if (x.proc p).pc = .idle then some (x.setProc p ((x.proc p).goto .fetchHead)) else none
  | .ret p buf =>
    if (x.proc p).pc = .idle ∧ buf ∈ (x.proc p).held then
      some (x.setProc p { x.proc p with pc := .walk buf, held := (x.proc p).held.erase buf })
    else none
  | .step p => ((x.proc p).step P x.shm).map fun r => { x with shm := r.1 }.setProc p r.2

def start (m : Manager) : Handout ι := ⟨m.shm, fun _ => ⟨.idle, [], 0⟩⟩

end Handout

/-- The buffer a process is about to hold or is giving back. -/
def Pc.transit : Pc → List ℕ
  | .writeNext cur => [cur]
  | .walk tmp => [tmp]
  | .fetchReturn tmp => [tmp]
  | .writeReturn tmp _ => [tmp]
  | .readReturn tmp => [tmp]
  | .swapReturn tmp _ => [tmp]
  | _ => []

def Process.owned (x : Process) : List ℕ := x.pc.transit ++ x.held

/-- Where the swap takes the head off the list, the link of the head is still the one read before. -/
def Pc.Unchanged (P : Params) (s : CollShm) : Pc → Prop
  | .swap cur nx => cur ≠ P.size → s.fetch .data = cur → s.word cur = nx
  | _ => True

instance (P : Params) (s : CollShm) (pc : Pc) : Decidable (pc.Unchanged P s) :=
  match pc with
  | .swap cur nx => inferInstanceAs (Decidable (cur ≠ P.size → s.fetch .data = cur → s.word cur = nx))
  | .idle | .fetchHead | .readNext _ | .fetchAgain | .readAgain _ | .writeNext _ | .readChunk _
  | .cutChunk _ _ | .fetchChunk _ _ | .writeChunk _ _ _ | .oldChunk _ _ | .swapChunk _ _ _
  | .walk _ | .fetchReturn _ | .writeReturn _ _ | .readReturn _ | .swapReturn _ _ | .failed => isTrue trivial

namespace Handout

variable {ι : Type*} [DecidableEq ι] (P : Params)

def Unchanged (x : Handout ι) : HandoutEvent ι → Prop
  | .step p => (x.proc p).pc.Unchanged P x.shm
  | _ => True

/-- No buffer is held twice, or held and on the free list, and each one is on the free list or with a
process. -/
def Exclusive (x : Handout ι) : Prop :=
  ∃ free, Path (x.shm.next P) (x.shm.next P (x.shm.list .data)) free ∧
    (∀ p q, ∀ buf ∈ (x.proc p).held, buf ∈ (x.proc q).held → p = q) ∧
    (∀ p, (x.proc p).held.Nodup) ∧
    (∀ p, ∀ buf ∈ (x.proc p).held, buf ∉ free) ∧
    ∀ buf ∈ P.buffers .data, buf ∈ free ∨ ∃ p, buf ∈ (x.proc p).owned

end Handout

/-- What a process knows where it is. No process ever gets a chunk. -/
def Pc.Knows (P : Params) (s : CollShm) : Pc → Prop
  | .readNext cur => cur ≠ P.size
  | .readAgain cur => cur ≠ P.size
  | .swap cur nx => cur = P.size → nx = P.size
  | .walk tmp => s.word tmp = P.size
  | .swapReturn tmp old => s.word tmp = old
  | .readChunk _ => False
  | .cutChunk _ _ => False
  | .fetchChunk _ _ => False
  | .writeChunk _ _ _ => False
  | .oldChunk _ _ => False
  | .swapChunk _ _ _ => False
  | _ => True

theorem Pc.Knows.congr {P : Params} {s s' : CollShm} {pc : Pc} (h : pc.Knows P s)
    (hword : ∀ a ∈ pc.transit, s'.word a = s.word a) : pc.Knows P s' := by
  cases pc with
  | walk tmp | swapReturn tmp old => exact (hword tmp (mem_singleton_self tmp)).trans h
  | _ => exact h

namespace Handout

variable {ι : Type*} {P : Params} {x x' : Handout ι} {F : List ℕ} {p : ι}

/-- Each buffer is on the free list or with one process. -/
structure Inv (P : Params) (x : Handout ι) (F : List ℕ) : Prop where
  roomy : P.Roomy
  full : P.size < x.shm.pool .data + P.cnt .data * P.sizeOf .data
  list : x.shm.list .data = P.buffer .data 0
  path : Path (x.shm.next P) (x.shm.next P (x.shm.list .data)) F
  nodup : F.Nodup
  free_mem : ∀ a ∈ F, a ∈ P.buffers .data
  owned_nodup : ∀ q, (x.proc q).owned.Nodup
  owned_mem : ∀ q, ∀ a ∈ (x.proc q).owned, a ∈ P.buffers .data
  owned_free : ∀ q, ∀ a ∈ (x.proc q).owned, a ∉ F
  apart : ∀ q r, q ≠ r → ∀ a ∈ (x.proc q).owned, a ∉ (x.proc r).owned
  all : ∀ a ∈ P.buffers .data, a ∈ F ∨ ∃ q, a ∈ (x.proc q).owned
  held_last : ∀ q, ∀ a ∈ (x.proc q).held, x.shm.word a = P.size
  knows : ∀ q, (x.proc q).pc.Knows P x.shm

namespace Inv

theorem list_not_mem (h : Inv P x F) : x.shm.list .data ∉ P.buffers .data := by
  rw [h.list]
  exact P.head_not_mem .data

theorem ne_size (h : Inv P x F) {a : ℕ} (ha : a ∈ P.buffers .data) : a≠P.size := by
  obtain ⟨i,-,hi,rfl⟩ := Params.mem_buffers.mp ha
  exact h.roomy.ne_size hi

theorem transit_mem (h : Inv P x F) {a : ℕ} (ha : a ∈ (x.proc p).pc.transit) :
    a ∈ (x.proc p).owned ∧ a ∈ P.buffers .data ∧ a ∉ F ∧ a ∉ (x.proc p).held := by
  have hown : a ∈ (x.proc p).owned := mem_append_left _ ha
  refine ⟨hown,h.owned_mem p a hown,h.owned_free p a hown,fun hhl => ?_⟩
  exact (nodup_append.mp (h.owned_nodup p)).2.2 a ha a hhl rfl

theorem exclusive (h : Inv P x F) : Exclusive P x := by
  refine ⟨F,h.path,?_,?_,?_,h.all⟩
  · intro p q a hp hq
    by_contra hne
    exact h.apart p q hne a (mem_append_right _ hp) (mem_append_right _ hq)
  · exact fun p => (h.owned_nodup p).of_append_right
  · exact fun p a ha => h.owned_free p a (mem_append_right _ ha)

variable [DecidableEq ι]

theorem go (h : Inv P x F) {s : CollShm} {y : Process} (hli : s.list=x.shm.list)
    (hpool : s.pool=x.shm.pool)
    (hword : ∀ a, a ∉ (x.proc p).pc.transit → s.word a = x.shm.word a)
    (hperm : y.owned.Perm (x.proc p).owned) (hla : ∀ a ∈ y.held, s.word a = P.size)
    (hkno : y.pc.Knows P s) : Inv P (Handout.setProc ⟨s,x.proc⟩ p y) F := by
  have hproc : ∀ q, q≠p → (Handout.setProc ⟨s,x.proc⟩ p y).proc q = x.proc q := fun q hq => update_of_ne hq _ _
  have hse : (Handout.setProc ⟨s,x.proc⟩ p y).proc p=y := update_self _ _ _
  have hmem : ∀ q a, a ∈ ((Handout.setProc ⟨s,x.proc⟩ p y).proc q).owned ↔ a ∈ (x.proc q).owned := by
    intro q a
    by_cases hq : q=p
    · subst hq
      rw [hse,hperm.mem_iff]
    · rw [hproc q hq]
  have hoth : ∀ q, q≠p → ∀ a ∈ (x.proc q).owned, s.word a = x.shm.word a := by
    intro q hq a ha
    apply hword
    intro hat
    exact h.apart q p hq a ha (h.transit_mem hat).1
  have hnx : ∀ a ∈ F, s.next P a = x.shm.next P a := by
    intro a ha
    exact next_congr (hword a fun hat => (h.transit_mem hat).2.2.1 ha)
  constructor
  · exact h.roomy
  · rw [show (Handout.setProc ⟨s,x.proc⟩ p y).shm=s from rfl,hpool]
    exact h.full
  · exact (congrFun hli _).trans h.list
  · have hhe : s.next P (s.list .data) = x.shm.next P (x.shm.list .data) := by
      rw [hli]
      exact next_congr (hword _ fun hat => h.list_not_mem (h.transit_mem hat).2.1)
    change Path (s.next P) (s.next P (s.list .data)) F
    rw [hhe]
    exact h.path.congr hnx
  · exact h.nodup
  · exact h.free_mem
  · intro q
    by_cases hq : q=p
    · subst hq
      rw [hse,hperm.nodup_iff]
      exact h.owned_nodup q
    · rw [hproc q hq]
      exact h.owned_nodup q
  · exact fun q a ha => h.owned_mem q a ((hmem q a).mp ha)
  · exact fun q a ha => h.owned_free q a ((hmem q a).mp ha)
  · intro q r hqr a ha har
    exact h.apart q r hqr a ((hmem q a).mp ha) ((hmem r a).mp har)
  · intro a ha
    obtain hF | ⟨q,hq⟩ := h.all a ha
    · exact Or.inl hF
    · exact Or.inr ⟨q,(hmem q a).mpr hq⟩
  · intro q a ha
    by_cases hq : q=p
    · subst hq
      rw [hse] at ha
      exact hla a ha
    · rw [hproc q hq] at ha
      exact (hoth q hq a (mem_append_right _ ha)).trans (h.held_last q a ha)
  · intro q
    by_cases hq : q=p
    · subst hq
      rw [hse]
      exact hkno
    · rw [hproc q hq]
      exact (h.knows q).congr fun a ha => hoth q hq a (mem_append_left _ ha)

theorem goto (h : Inv P x F) {pc : Pc} (htra : pc.transit=(x.proc p).pc.transit)
    (hkno : pc.Knows P x.shm) : Inv P (x.setProc p ((x.proc p).goto pc)) F := by
  have hown : ((x.proc p).goto pc).owned=(x.proc p).owned := by
    rw [Process.owned,Process.owned,Process.goto,htra]
  exact h.go (s := x.shm) (y := (x.proc p).goto pc) rfl rfl (fun _ _ => rfl)
    (by rw [hown]) (h.held_last p) hkno

theorem exchange (h : Inv P x F) {F' : List ℕ} {v : ℕ} {y : Process}
    (hpath : Path ((x.shm.store (x.shm.list .data) v).next P)
      ((x.shm.store (x.shm.list .data) v).next P (x.shm.list .data)) F')
    (hperm : (F' ++ y.owned).Perm (F ++ (x.proc p).owned)) (hhl : y.held=(x.proc p).held)
    (hkno : y.pc.Knows P (x.shm.store (x.shm.list .data) v)) :
    Inv P (Handout.setProc ⟨x.shm.store (x.shm.list .data) v,x.proc⟩ p y) F' := by
  have hproc : ∀ q, q≠p → (Handout.setProc ⟨x.shm.store (x.shm.list .data) v,x.proc⟩ p y).proc q = x.proc q :=
    fun q hq => update_of_ne hq _ _
  have hse : (Handout.setProc ⟨x.shm.store (x.shm.list .data) v,x.proc⟩ p y).proc p=y := update_self _ _ _
  have hbt : (F ++ (x.proc p).owned).Nodup := nodup_append.mpr ⟨h.nodup,h.owned_nodup p,fun a ha b hb heq =>
      h.owned_free p b hb (heq ▸ ha)⟩
  have hbt' := hperm.nodup_iff.mpr hbt
  have hmem : ∀ a, a ∈ F' ∨ a ∈ y.owned ↔ a ∈ F ∨ a ∈ (x.proc p).owned := by
    intro a
    have := hperm.mem_iff (a := a)
    simpa using this
  have hword : ∀ a ∈ P.buffers .data, (x.shm.store (x.shm.list .data) v).word a = x.shm.word a := by
    intro a ha
    apply word_store_of_ne
    rintro rfl
    exact h.list_not_mem ha
  have hbuf : ∀ a, a ∈ F ∨ a ∈ (x.proc p).owned → a ∈ P.buffers .data := by
    intro a ha
    obtain ha | ha := ha
    · exact h.free_mem a ha
    · exact h.owned_mem p a ha
  have hots : ∀ q, q≠p → ∀ a, a ∈ F ∨ a ∈ (x.proc p).owned → a ∉ (x.proc q).owned := by
    intro q hq a ha haq
    obtain ha | ha := ha
    · exact h.owned_free q a haq ha
    · exact h.apart q p hq a haq ha
  constructor
  · exact h.roomy
  · exact h.full
  · exact h.list
  · exact hpath
  · exact hbt'.of_append_left
  · exact fun a ha => hbuf a ((hmem a).mp (Or.inl ha))
  · intro q
    by_cases hq : q=p
    · subst hq
      rw [hse]
      exact hbt'.of_append_right
    · rw [hproc q hq]
      exact h.owned_nodup q
  · intro q a ha
    by_cases hq : q=p
    · subst hq
      rw [hse] at ha
      exact hbuf a ((hmem a).mp (Or.inr ha))
    · rw [hproc q hq] at ha
      exact h.owned_mem q a ha
  · intro q a ha haF
    by_cases hq : q=p
    · subst hq
      rw [hse] at ha
      exact (nodup_append.mp hbt').2.2 a haF a ha rfl
    · rw [hproc q hq] at ha
      exact hots q hq a ((hmem a).mp (Or.inl haF)) ha
  · intro q r hqr a haq har
    by_cases hq : q=p
    · subst hq
      rw [hse] at haq
      rw [hproc r (Ne.symm hqr)] at har
      exact hots r (Ne.symm hqr) a ((hmem a).mp (Or.inr haq)) har
    · rw [hproc q hq] at haq
      by_cases hr : r=p
      · subst hr
        rw [hse] at har
        exact hots q hq a ((hmem a).mp (Or.inr har)) haq
      · rw [hproc r hr] at har
        exact h.apart q r hqr a haq har
  · intro a ha
    obtain hF | ⟨q,hq⟩ := h.all a ha
    · obtain hF' | hy := (hmem a).mpr (Or.inl hF)
      · exact Or.inl hF'
      · exact Or.inr ⟨p,by rwa [hse]⟩
    · by_cases hqp : q=p
      · subst hqp
        obtain hF' | hy := (hmem a).mpr (Or.inr hq)
        · exact Or.inl hF'
        · exact Or.inr ⟨q,by rwa [hse]⟩
      · exact Or.inr ⟨q,by rwa [hproc q hqp]⟩
  · intro q a ha
    have ha' : a ∈ (x.proc q).held := by
      by_cases hq : q=p
      · subst hq
        rwa [hse,hhl] at ha
      · rwa [hproc q hq] at ha
    exact (hword a (h.owned_mem q a (mem_append_right _ ha'))).trans (h.held_last q a ha')
  · intro q
    by_cases hq : q=p
    · subst hq
      rw [hse]
      exact hkno
    · rw [hproc q hq]
      exact (h.knows q).congr fun a ha => hword a (h.owned_mem q a (mem_append_left _ ha))

end Inv

theorem compareAndSwap_cases (s : CollShm) (old new : ℕ) :
    (s.fetch .data = old ∧ Process.compareAndSwap s old new = (true, s.store (s.list .data) new)) ∨
      Process.compareAndSwap s old new = (false, s) := by
  unfold Process.compareAndSwap
  split
  · exact Or.inl ⟨‹_›,rfl⟩
  · exact Or.inr rfl

namespace Inv

theorem takeChunk_none (h : Inv P x F) : x.shm.takeChunk P .data = none := by
  rw [takeChunk,if_neg]
  intro hft
  have hle : x.shm.pool .data+P.cnt .data*P.sizeOf .data≤P.size := hft
  have hfull := h.full
  omega

variable [DecidableEq ι]

theorem pop (h : Inv P x F) {cur next : ℕ} (hpc : (x.proc p).pc = .swap cur next)
    (hcur : cur≠P.size) (hhe : x.shm.fetch .data = cur) (hnx : x.shm.word cur = next) :
    ∃ F', Inv P (Handout.setProc ⟨x.shm.store (x.shm.list .data) next,x.proc⟩ p
      ((x.proc p).goto (.writeNext cur))) F' := by
  have hpath := h.path
  have hlink : x.shm.next P (x.shm.list .data) = some cur := by
    rw [← hhe] at hcur ⊢
    exact Params.link_of_ne hcur
  rw [hlink] at hpath
  obtain ⟨F',rfl⟩ : ∃ F', F=cur :: F' := by
    cases F with
    | nil => exact absurd hpath (by simp [Math.Path])
    | cons a F' =>
      obtain rfl : cur=a := some.inj hpath.1
      exact ⟨F',rfl⟩
  have hne : cur≠x.shm.list .data := by
    rintro rfl
    exact h.list_not_mem (h.free_mem _ mem_cons_self)
  refine ⟨F',h.exchange ?_ ?_ rfl trivial⟩
  · have hnew : (x.shm.store (x.shm.list .data) next).next P (x.shm.list .data) = x.shm.next P cur := by
      rw [next_eq,word_store_self,next_eq,hnx]
    rw [hnew]
    apply hpath.2.congr
    intro a ha
    apply next_congr
    apply word_store_of_ne
    rintro rfl
    exact h.list_not_mem (h.free_mem _ (mem_cons_of_mem _ ha))
  · have hown : (x.proc p).owned=(x.proc p).held := by
      rw [Process.owned,hpc]
      rfl
    rw [hown]
    exact perm_middle

theorem push (h : Inv P x F) {tmp old : ℕ} (hpc : (x.proc p).pc = .swapReturn tmp old)
    (hhe : x.shm.fetch .data = old) :
    Inv P (Handout.setProc ⟨x.shm.store (x.shm.list .data) tmp,x.proc⟩ p ((x.proc p).goto .idle)) (tmp :: F) := by
  have hword : x.shm.word tmp=old := by
    have := h.knows p
    rwa [hpc] at this
  obtain ⟨-,hbuf,hfr,-⟩ := h.transit_mem (p := p) (a := tmp) (by
    rw [hpc]
    exact mem_singleton_self tmp)
  have hne : tmp≠x.shm.list .data := by
    rintro rfl
    exact h.list_not_mem hbuf
  apply h.exchange
  · refine ⟨?_,?_⟩
    · rw [next_eq,word_store_self]
      exact Params.link_of_ne (h.ne_size hbuf)
    · have hlink : (x.shm.store (x.shm.list .data) tmp).next P tmp = x.shm.next P (x.shm.list .data) := by
        rw [next_eq,word_store_of_ne hne,hword,← hhe]
        rfl
      rw [hlink]
      apply h.path.congr
      intro a ha
      apply next_congr
      apply word_store_of_ne
      rintro rfl
      exact h.list_not_mem (h.free_mem _ ha)
  · have hown : (x.proc p).owned=tmp :: (x.proc p).held := by
      rw [Process.owned,hpc]
      rfl
    rw [hown]
    exact perm_middle.symm
  · rfl
  · trivial

theorem write (h : Inv P x F) {tmp v : ℕ} {y : Process} (htra : (x.proc p).pc.transit = [tmp])
    (hperm : y.owned.Perm (x.proc p).owned) (hla : ∀ a ∈ y.held, a ∈ (x.proc p).held ∨ a=tmp ∧ v=P.size)
    (hkno : y.pc.Knows P (x.shm.store tmp v)) :
    Inv P (Handout.setProc ⟨x.shm.store tmp v,x.proc⟩ p y) F := by
  apply h.go (s := x.shm.store tmp v) rfl rfl _ hperm _ hkno
  · intro a ha
    rw [htra,mem_singleton] at ha
    exact word_store_of_ne ha
  · intro a ha
    obtain hhl | ⟨rfl,rfl⟩ := hla a ha
    · have hne : a≠tmp := by
        rintro rfl
        exact (h.transit_mem (p := p) (by rw [htra]; exact mem_singleton_self a)).2.2.2 hhl
      rw [word_store_of_ne hne]
      exact h.held_last p a hhl
    · exact word_store_self _ _ _

end Inv

theorem Inv.ret [DecidableEq ι] (h : Inv P x F) {buf : ℕ} (hpc : (x.proc p).pc = .idle)
    (hbuf : buf ∈ (x.proc p).held) :
    Inv P (x.setProc p { x.proc p with pc := .walk buf, held := (x.proc p).held.erase buf }) F := by
  have hown : (x.proc p).owned=(x.proc p).held := by
    rw [Process.owned,hpc]
    rfl
  apply h.go (s := x.shm) rfl rfl (fun _ _ => rfl)
  · rw [hown]
    exact (perm_cons_erase hbuf).symm
  · exact fun a ha => h.held_last p a (mem_of_mem_erase ha)
  · exact h.held_last p buf hbuf

theorem step_inv [DecidableEq ι] {e : HandoutEvent ι} (h : Inv P x F) (hok : x.Unchanged P e)
    (hs : x.step P e = some x') : ∃ F', Inv P x' F' := by
  cases e with
  | get p =>
    obtain ⟨hpc,rfl⟩ := ite_some_none_eq_some.mp hs
    exact ⟨F,h.goto (by rw [hpc]; rfl) trivial⟩
  | ret p buf =>
    obtain ⟨⟨hpc,hbuf⟩,rfl⟩ := ite_some_none_eq_some.mp hs
    exact ⟨F,h.ret hpc hbuf⟩
  | step p =>
    obtain ⟨⟨s,y⟩,hsp,rfl⟩ := map_eq_some_iff.mp hs
    have hkno := h.knows p
    have hgo (pc : Pc) (ht : pc.transit=(x.proc p).pc.transit) (hk : pc.Knows P x.shm)
        (heq : some (x.shm, (x.proc p).goto pc) = some (s, y)) :
        ∃ F', Inv P (Handout.setProc ⟨s,x.proc⟩ p y) F' := by
      obtain ⟨rfl,rfl⟩ := Prod.mk.inj (some.inj heq)
      exact ⟨F,h.goto ht hk⟩
    unfold Process.step at hsp
    have hok' : (x.proc p).pc.Unchanged P x.shm := hok
    cases hpc : (x.proc p).pc with
    | idle | failed => simp [hpc] at hsp
    | fetchHead =>
      simp only [hpc,h.takeChunk_none] at hsp
      split at hsp
      · exact hgo .failed (by rw [hpc]; rfl) trivial hsp
      · exact hgo (.readNext (x.shm.fetch .data)) (by rw [hpc]; rfl) ‹_› hsp
    | readNext cur =>
      simp only [hpc] at hsp
      rw [hpc] at hkno
      exact hgo (.swap cur (x.shm.word cur)) (by rw [hpc]; rfl) (fun h0 => absurd h0 hkno) hsp
    | swap cur next =>
      rw [hpc] at hkno
      rw [hpc] at hok'
      obtain ⟨hhe,hcas⟩ | hcas := compareAndSwap_cases x.shm cur next
      · simp only [hpc,hcas] at hsp
        obtain ⟨rfl,rfl⟩ := Prod.mk.inj (some.inj hsp)
        by_cases hcur : cur=P.size
        · -- both are the null offset: the list stays empty
          have hsm : x.shm.store (x.shm.list .data) next=x.shm := by
            rw [hkno hcur,← hcur,← hhe]
            cases hx : x.shm
            simp [CollShm.store,fetch]
          rw [hsm,if_pos hcur]
          exact ⟨F,h.goto (by rw [hpc]; rfl) trivial⟩
        · rw [if_neg hcur]
          exact h.pop hpc hcur hhe (hok' hcur hhe)
      · simp only [hpc,hcas] at hsp
        exact hgo .fetchAgain (by rw [hpc]; rfl) trivial hsp
    | fetchAgain =>
      simp only [hpc] at hsp
      split at hsp
      · exact hgo (.swap P.size P.size) (by rw [hpc]; rfl) (fun _ => rfl) hsp
      · exact hgo (.readAgain (x.shm.fetch .data)) (by rw [hpc]; rfl) ‹_› hsp
    | readAgain cur =>
      simp only [hpc] at hsp
      rw [hpc] at hkno
      exact hgo (.swap cur (x.shm.word cur)) (by rw [hpc]; rfl) (fun h0 => absurd h0 hkno) hsp
    | writeNext cur =>
      simp only [hpc] at hsp
      obtain ⟨rfl,rfl⟩ := Prod.mk.inj (some.inj hsp)
      have htra : (x.proc p).pc.transit = [cur] := by
        rw [hpc]
        rfl
      refine ⟨F,h.write htra ?_ ?_ trivial⟩
      · rw [Process.owned,Process.owned,hpc]
        exact List.Perm.refl _
      · intro a ha
        obtain rfl | ha := mem_cons.mp ha
        · exact Or.inr ⟨rfl,rfl⟩
        · exact Or.inl ha
    | readChunk tmp =>
      rw [hpc] at hkno
      exact absurd hkno id
    | cutChunk tmp next =>
      rw [hpc] at hkno
      exact absurd hkno id
    | fetchChunk tmp next | writeChunk tmp next head | oldChunk tmp next | swapChunk tmp next old =>
      rw [hpc] at hkno
      exact absurd hkno id
    | walk tmp =>
      rw [hpc] at hkno
      have hla : x.shm.word tmp=P.size := hkno
      simp only [hpc,hla,if_true] at hsp
      exact hgo (.fetchReturn tmp) (by rw [hpc]; rfl) trivial hsp
    | fetchReturn tmp =>
      simp only [hpc] at hsp
      exact hgo (.writeReturn tmp (x.shm.fetch .data)) (by rw [hpc]; rfl) trivial hsp
    | writeReturn tmp head =>
      simp only [hpc] at hsp
      obtain ⟨rfl,rfl⟩ := Prod.mk.inj (some.inj hsp)
      have htra : (x.proc p).pc.transit = [tmp] := by
        rw [hpc]
        rfl
      refine ⟨F,h.write htra ?_ (fun a ha => Or.inl ha) trivial⟩
      rw [Process.owned,Process.owned,hpc]
      exact List.Perm.refl _
    | readReturn tmp =>
      simp only [hpc] at hsp
      exact hgo (.swapReturn tmp (x.shm.word tmp)) (by rw [hpc]; rfl) rfl hsp
    | swapReturn tmp old =>
      obtain ⟨hhe,hcas⟩ | hcas := compareAndSwap_cases x.shm old tmp
      · simp only [hpc,hcas] at hsp
        obtain ⟨rfl,rfl⟩ := Prod.mk.inj (some.inj hsp)
        exact ⟨tmp :: F,h.push hpc hhe⟩
      · simp only [hpc,hcas] at hsp
        exact hgo (.fetchReturn tmp) (by rw [hpc]; rfl) trivial hsp

theorem size_le (P : Params) : P.size ≤ P.poolStart .data+P.cnt .data*P.sizeOf .data := by
  have hctrl := Nat.mul_le_mul_left (P.cnt .ctrl) (P.sz_le_sizeOf .ctrl)
  have hlar := Nat.mul_le_mul_left (P.cnt .large) (P.sz_le_sizeOf .large)
  have hda := Nat.mul_le_mul_left (P.cnt .data) (P.sz_le_sizeOf .data)
  simp only [Params.size,Params.poolStart]
  omega

theorem start_inv {m : Manager} (h : Manager.init P = some m) :
    ∃ F, Inv P (start m : Handout ι) F := by
  obtain ⟨hinv,hpool⟩ := init_spec h
  obtain ⟨F,hpoo⟩ := hinv.pools
  have hda := hpoo .data
  have hperm : (F .data).Perm (P.buffers .data) := by simpa [System.start] using hda.perm
  refine ⟨F .data,?_⟩
  constructor
  · exact hinv.roomy
  · have hpos := Nat.mul_pos (P.cnt_pos .data) (P.sizeOf_pos .data)
    have hle := size_le P
    rw [show (start m : Handout ι).shm=m.shm from rfl,hpool]
    omega
  · exact hda.head
  · exact hda.path
  · exact hperm.nodup_iff.mpr (P.buffers_nodup .data)
  · exact fun a ha => hperm.mem_iff.mp ha
  · exact fun q => nodup_nil
  · exact fun q a ha => absurd ha (not_mem_nil)
  · exact fun q a ha => absurd ha (not_mem_nil)
  · exact fun q r _ a ha => absurd ha (not_mem_nil)
  · exact fun a ha => Or.inl (hperm.mem_iff.mpr ha)
  · exact fun q a ha => absurd ha (not_mem_nil)
  · exact fun q => trivial

/-- Buffers are handed out one at a time to one process at a time, as long as no process swaps out a
head whose link has changed since it read it. -/
theorem handout_exclusive [DecidableEq ι] {m : Manager} (hin : Manager.init P = some m)
    (h : Run (step P) (Unchanged P) (start m : Handout ι) x) : Exclusive P x := by
  have hinv : ∃ F, Inv P x F := by
    apply Run.invariant (P := fun x => ∃ F, Inv P x F) h (start_inv hin)
    intro x e x' hinv hok hs
    obtain ⟨F,hinv⟩ := hinv
    exact step_inv hinv hok hs
  obtain ⟨F,hinv⟩ := hinv
  exact hinv.exclusive

instance [DecidableEq ι] (x : Handout ι) (e : HandoutEvent ι) : Decidable (x.Unchanged P e) :=
  match e with
  | .get _ => isTrue trivial
  | .ret _ _ => isTrue trivial
  | .step p => inferInstanceAs (Decidable ((x.proc p).pc.Unchanged P x.shm))

/-- The calls of two processes with a pool of three buffers. -/
def stepsOf (p n : ℕ) : List (HandoutEvent ℕ) := List.replicate n (.step p)

theorem handout_exclusive_two : ∃ x, execEvents (fun x e => if x.Unchanged three e then x.step three e else none)
      ([.get 0] ++ stepsOf 0 2 ++ [.get 1] ++ stepsOf 1 4 ++ stepsOf 0 5 ++ [.ret 1 1024] ++
        stepsOf 1 5) (start threeManager) = some x ∧ Exclusive three x := by
  have hso : (execEvents (fun x e => if x.Unchanged three e then x.step three e else none)
      ([.get 0] ++ stepsOf 0 2 ++ [.get 1] ++ stepsOf 1 4 ++ stepsOf 0 5 ++ [.ret 1 1024] ++
        stepsOf 1 5) (start threeManager)).isSome=true := by decide
  obtain ⟨x,hx⟩ := isSome_iff_exists.mp hso
  exact ⟨x,hx,handout_exclusive init_three (Run.refl.checked _ hx)⟩

/-- Between the read of the head's link and the swap another process takes both buffers and gives
the first one back: the swap succeeds, the other buffer is the head again, and then both processes
hold it. -/
theorem buffer_held_twice : ∃ x, execEvents (step three)
      ([.get 0] ++ stepsOf 0 2 ++ [.get 1] ++ stepsOf 1 4 ++ [.get 1] ++ stepsOf 1 4 ++
        [.ret 1 1024] ++ stepsOf 1 5 ++ stepsOf 0 2 ++ [.get 0] ++ stepsOf 0 4)
      (start threeManager) = some x ∧
    1152 ∈ (x.proc 0).held ∧ 1152 ∈ (x.proc 1).held ∧ ¬ Exclusive three x := by
  have hrun : (execEvents (step three)
      ([.get 0] ++ stepsOf 0 2 ++ [.get 1] ++ stepsOf 1 4 ++ [.get 1] ++ stepsOf 1 4 ++
        [.ret 1 1024] ++ stepsOf 1 5 ++ stepsOf 0 2 ++ [.get 0] ++ stepsOf 0 4)
      (start threeManager)).map (fun x => ((x.proc 0).held, (x.proc 1).held)) =
      some ([1152,1024], [1152]) := by decide
  obtain ⟨x,hx,hhl⟩ := map_eq_some_iff.mp hrun
  obtain ⟨h0,h1⟩ := Prod.mk.inj hhl
  have hmem0 : 1152 ∈ (x.proc 0).held := by simp [h0]
  have hmem1 : 1152 ∈ (x.proc 1).held := by simp [h1]
  refine ⟨x,hx,hmem0,hmem1,?_⟩
  rintro ⟨F,-,hapa,-⟩
  exact absurd (hapa 0 1 1152 hmem0 hmem1) (by decide)

end Handout

end PAMI.Cshmem
