import PAMI.Shmem.PacketModel

namespace PAMI.Shmem.Sender

open PAMI.Math PacketMessage Writer List Option

variable {μ β κ : Type*} {size : ℕ} {s s' : Sender μ β κ} {e : SenderEvent μ β κ} {r : Option Bool}
  {i room : ℕ}

/-- What holds between the events of clean runs. -/
def Kept (size : ℕ) (s : Sender μ β κ) : Prop := Driven s ∧ ∃ finished waiting, InOrder size s finished waiting

theorem Kept.post (h : Kept size s) (w w' : Writer μ β) (fn : Option κ) (front : List (Packet μ β))
    (hpac : w.packets size = front ++ w'.packets size) (hemp : s.sendQ = [] ∨ front = []) :
    Kept size
      (Sender.post { s with posted := s.posted ++ [(w, fn)], fifo := s.fifo ++ front } w' fn) := by
  obtain ⟨hdri,finished,waiting,hord⟩ := h
  have hdri' :
      Driven { s with posted := s.posted ++ [(w, fn)], fifo := s.fifo ++ front } :=
    ⟨hdri.head,hdri.tail⟩
  exact ⟨hdri'.post w' fn,_,_,hord.post w w' fn front hpac hemp⟩

theorem Kept.direct (h : Kept size s) (hq : s.sendQ = []) (w : Writer μ β) (fn : Option κ) :
    Kept size { s with
      posted := s.posted ++ [(w, fn)]
      fifo := s.fifo ++ w.packets size
      callbacks := s.callbacks ++ fn.toList } := by
  obtain ⟨hdri,finished,waiting,hord⟩ := h
  exact ⟨⟨hdri.head,hdri.tail⟩,_,_,hord.direct hq w fn⟩

theorem postPacket_kept (h : Kept size s) (header : μ) (payload : List β) (fn : Option κ)
    (room : ℕ) : Kept size (postPacket size s header payload fn room).1 := by
  rw [postPacket]
  split
  · next hrm =>
    simpa [packets,produce] using h.direct (by simpa using hrm.1) ⟨false,header,payload⟩ fn
  · simpa using h.post ⟨false,header,payload⟩ _ fn [] rfl (.inr rfl)

theorem postImmediate_kept (h : Kept size s) (header : μ) (payload : List β) (room : ℕ) :
    Kept size (postImmediate size s header payload room).1 := by
  rw [postImmediate]
  split
  · next hrm =>
    simpa [packets,produce] using h.direct (by simpa using hrm.1) ⟨false,header,payload⟩ none
  · exact h

theorem postMultiPacket_kept_iff (hsi : 0 < size) (h : Kept size s) (header : μ)
    (payload : List β) (fn : Option κ) (room : ℕ) :
    Kept size (postMultiPacket size s header payload fn room).1 ↔ ¬ (payload = [] ∧ s.sendQ = [] ∧ room=0) := by
  constructor
  · intro hkp ⟨hpay,hq,hrm⟩
    obtain ⟨_,finished,waiting,hord⟩ := h
    obtain ⟨_,finished',waiting',hord'⟩ := hkp
    have hbef := (hord.of_empty hq).1
    have haft := (hord'.of_empty (by simp [postMultiPacket,hq,hpay,hrm,writeAtPost,isDone])).1
    have hone : (⟨true,header,[]⟩ : Writer μ β).packets size = [⟨header,[]⟩] := by
      simp [packets,packetCount,Nat.div_eq_of_lt (Nat.sub_lt hsi one_pos)]
    simp [postMultiPacket,hq,hpay,hrm,writeAtPost,isDone,hbef,hone] at haft
  · intro hcle
    rw [postMultiPacket]
    by_cases hq : s.sendQ = []
    · have hloop : writeAtPost size room ⟨true,header,payload⟩ = write size room ⟨true,header,payload⟩ := by
        apply writeAtPost_eq_write
        intro hrm hdn
        exact hcle ⟨by simpa [isDone] using hdn,hq,hrm⟩
      have hwri := packets_write hsi room (⟨true,header,payload⟩ : Writer μ β)
      simp only [hq,isEmpty_nil,if_true,hloop]
      split
      · next hdn =>
        rw [if_pos hdn,append_nil] at hwri
        simpa [hq,hwri] using h.direct hq ⟨true,header,payload⟩ fn
      · next hdn =>
        rw [if_neg hdn] at hwri
        simpa [hq] using h.post _ _ fn _ hwri (.inl hq)
    · simpa [hq] using h.post ⟨true,header,payload⟩ _ fn [] rfl (.inr rfl)

theorem Driven.work_head (hsi : 0 < size) (h : Driven s) (hs : work size s i room = some s') :
    ∃ m m' rest front, s.sendQ = m :: rest ∧ s' = { s with sendQ := m' :: rest, fifo := s.fifo ++ front } ∧
      m.pending size = front ++ m'.pending size ∧ m'.fn=m.fn ∧ m'.onQueue=m.onQueue ∧
      (m'.working=true ↔ m'.status ≠ .done) ∧ (0 < room → 0<front.length) := by
  obtain ⟨m,hm,hwr⟩ := bind_eq_some_iff.mp hs
  have hwor : m.working=true := by
    by_contra hno
    simp [hno] at hwr
  rw [if_pos hwor,some_inj] at hwr
  cases hq : s.sendQ with
  | nil => simp [hq] at hm
  | cons m0 rest =>
    have hhe := h.head m0 (by simp [hq])
    cases i with
    | zero =>
      obtain rfl : m0=m := by simpa [hq] using hm
      have hsta : m0.status ≠ .done := hhe.2.mp hwor
      have hwri := packets_write hsi room m0.writer
      have hso : 0 < room → 0<(m0.writer.write size room).1.length := by
        intro hrm
        obtain ⟨k,rfl⟩ : ∃ k, room=k+1 := ⟨room-1,by omega⟩
        exact write_nonempty k m0.writer
      refine ⟨m0,_,rest,_,rfl,by simpa [hq] using hwr.symm,?_,?_,?_,?_,hso⟩
      · by_cases hdn : (m0.writer.write size room).2.2
        · simpa [pending,hsta,hdn] using hwri
        · simpa [pending,hsta,hdn] using hwri
      · split <;> rfl
      · split <;> rfl
      · split
        · simp
        · simpa [hwor] using hsta
    | succ i =>
      have hid : Idle m := h.tail m (by
        rw [hq,List.getElem?_cons_succ] at hm
        simpa [hq] using mem_of_getElem? hm)
      simp [hid.2.2] at hwor

theorem Driven.complete_head (h : Driven s) (hs : complete s i = some s') :
    ∃ m rest, s.sendQ = m :: rest ∧ m.status = .done ∧ s' = { s with
        sendQ := rest.modifyHead postNext, callbacks := s.callbacks ++ m.fn.toList } := by
  obtain ⟨m,hm,hcom⟩ := bind_eq_some_iff.mp hs
  have hdn : m.onQueue=true ∧ m.status = .done := by
    by_contra hno
    simp [hno] at hcom
  rw [if_pos hdn,some_inj] at hcom
  cases hq : s.sendQ with
  | nil => simp [hq] at hm
  | cons m0 rest =>
    cases i with
    | zero =>
      obtain rfl : m0=m := by simpa [hq] using hm
      exact ⟨m0,rest,rfl,hdn.2,by simpa [hq] using hcom.symm⟩
    | succ i =>
      have hid : Idle m := h.tail m (by
        rw [hq,List.getElem?_cons_succ] at hm
        simpa [hq] using mem_of_getElem? hm)
      simp [hid.2.1] at hdn

theorem work_kept (hsi : 0 < size) (h : Kept size s) (hs : work size s i room = some s') :
    Kept size s' := by
  obtain ⟨hdri,finished,waiting,hord⟩ := h
  obtain ⟨m,m',rest,front,hq,rfl,hpen,hfn,honq,hwor,_⟩ := hdri.work_head hsi hs
  refine ⟨⟨?_,?_⟩,finished,waiting,hord.posted,hord.callbacks,?_,?_⟩
  · have hhe := hdri.head m (by simp [hq])
    simpa [honq,hhe.1] using hwor
  · simpa [hq] using hdri.tail
  · simpa [hq,hpen] using hord.fifo
  · have hque := hord.queued
    rw [hq] at hque
    cases hque with
    | cons hm hrs =>
      have hsuf : m'.pending size <:+ m.pending size := hpen ▸ suffix_append _ _
      exact .cons ⟨hfn.trans hm.1,hsuf.trans hm.2⟩ hrs

theorem complete_kept (h : Kept size s) (hs : complete s i = some s') : Kept size s' := by
  obtain ⟨hdri,finished,waiting,hord⟩ := h
  obtain ⟨m,rest,hq,hdn,rfl⟩ := hdri.complete_head hs
  have hfifo := hord.fifo
  have hque := hord.queued
  have hta := hdri.tail
  rw [hq] at hfifo hque hta
  have hps : ∀ m : PacketMessage μ β κ, m.postNext.pending size = m.pending size ∧
      m.postNext.fn=m.fn := fun _ => ⟨rfl,rfl⟩
  cases hque with
  | @cons _ p _ waiting hm hrs =>
    refine ⟨⟨?_,?_⟩,finished ++ [p],waiting,?_,?_,?_,?_⟩
    · cases rest with
      | nil => simp
      | cons m' rest =>
        have hid := hta m' (by simp)
        simp [postNext,hid.1]
    · cases rest with
      | nil => simp
      | cons m' rest => exact fun m'' hm'' => hta m'' (by simp_all)
    · simp [hord.posted]
    · have hfn : [p].filterMap Prod.snd=m.fn.toList := by
        rw [hm.1]
        cases hp : p.2 <;> simp [hp]
      rw [filterMap_append,hord.callbacks,hfn]
    · have hnn : m.pending size = [] := by simp [pending,hdn]
      rw [flatMap_cons,hnn,nil_append] at hfifo
      cases rest <;> simpa [hps] using hfifo
    · cases hrs with
      | nil => exact .nil
      | cons hm' hrs => exact .cons ⟨hm'.1,hm'.2⟩ hrs

/-- What the generic device has still to do: packets to produce and messages to complete. -/
def remaining (size : ℕ) (s : Sender μ β κ) : ℕ := (s.sendQ.flatMap (pending size)).length + s.sendQ.length

/-- A step of the generic device with room in the fifo. -/
def Driving : SenderEvent μ β κ → Prop
  | .work _ room => 0 < room
  | .complete _ => True
  | _ => False

theorem driving_exists (h : Driven s) (hq : s.sendQ ≠ []) :
    ∃ e s', Driving e ∧ step size s e = some (s', none) := by
  obtain ⟨m,rest,hq⟩ := exists_cons_of_ne_nil hq
  have hhe := h.head m (by simp [hq])
  by_cases hdn : m.status = .done
  · exact ⟨.complete 0,_,trivial,by simp [step,complete,hq,hhe.1,hdn]; rfl⟩
  · have hwor : m.working=true := hhe.2.mpr hdn
    exact ⟨.work 0 1,_,one_pos,by simp [step,work,hq,hwor]; rfl⟩

theorem driving_decreases (hsi : 0 < size) (h : Driven s) (he : Driving e)
    (hs : step size s e = some (s', r)) : remaining size s' < remaining size s := by
  cases e with
  | work i room =>
    obtain ⟨s1,hwr,heq⟩ := map_eq_some_iff.mp hs
    obtain ⟨rfl,-⟩ := Prod.mk.inj heq
    obtain ⟨m,m',rest,front,hq,rfl,hpen,-,-,-,hfro⟩ := h.work_head hsi hwr
    have := hfro he
    simp only [remaining,hq,hpen,flatMap_cons,length_append,length_cons]
    omega
  | complete i =>
    obtain ⟨s1,hcom,heq⟩ := map_eq_some_iff.mp hs
    obtain ⟨rfl,-⟩ := Prod.mk.inj heq
    obtain ⟨m,rest,hq,-,rfl⟩ := h.complete_head hcom
    have hhe : (rest.modifyHead postNext).flatMap (pending size) = rest.flatMap (pending size) := by
      cases rest <;> rfl
    simp only [remaining,hq,hhe,flatMap_cons,length_append,length_modifyHead,length_cons]
    omega
  | postPacket | postImmediate | postMultiPacket => exact he.elim

theorem returned_true (hs : step size s e = some (s', some true)) : s'.sendQ = [] := by
  cases e with
  | postPacket header payload fn room =>
    simp only [step,postPacket,some_inj] at hs
    split at hs
    · next hrm =>
      obtain ⟨rfl,-⟩ := Prod.mk.inj hs
      simpa using hrm.1
    · simp [Prod.map] at hs
  | postImmediate header payload room =>
    simp only [step,postImmediate,some_inj] at hs
    split at hs
    · next hrm =>
      obtain ⟨rfl,-⟩ := Prod.mk.inj hs
      simpa using hrm.1
    · simp [Prod.map] at hs
  | postMultiPacket header payload fn room =>
    simp only [step,postMultiPacket,some_inj] at hs
    split at hs
    · next hq =>
      split at hs
      · obtain ⟨rfl,-⟩ := Prod.mk.inj hs
        simpa using hq
      · simp [Prod.map] at hs
    · simp [Prod.map] at hs
  | work i room | complete i => simp [step] at hs

theorem step_kept_iff (hsi : 0 < size) (h : Kept size s) (hs : step size s e = some (s', r)) :
    Kept size s' ↔ Clean s e := by
  cases e with
  | postPacket header payload fn room =>
    obtain ⟨rfl,-⟩ := Prod.mk.inj (some.inj hs)
    exact iff_of_true (postPacket_kept h header payload fn room) trivial
  | postImmediate header payload room =>
    obtain ⟨rfl,-⟩ := Prod.mk.inj (some.inj hs)
    exact iff_of_true (postImmediate_kept h header payload room) trivial
  | postMultiPacket header payload fn room =>
    obtain ⟨rfl,-⟩ := Prod.mk.inj (some.inj hs)
    exact postMultiPacket_kept_iff hsi h header payload fn room
  | work i room =>
    obtain ⟨s1,hwr,heq⟩ := map_eq_some_iff.mp hs
    obtain ⟨rfl,-⟩ := Prod.mk.inj heq
    exact iff_of_true (work_kept hsi h hwr) trivial
  | complete i =>
    obtain ⟨s1,hcom,heq⟩ := map_eq_some_iff.mp hs
    obtain ⟨rfl,-⟩ := Prod.mk.inj heq
    exact iff_of_true (complete_kept h hcom) trivial

theorem initial_kept : Kept size (initial : Sender μ β κ) :=
  ⟨⟨by simp [initial],by simp [initial]⟩,[],[],rfl,rfl,rfl,.nil⟩

/-- In every clean run the fifo holds the packets of the posts in their order, callbacks run when their packets are in it, and
the device goes on while a message is queued and there is room. -/
theorem posts_in_order (hsi : 0 < size)
    (h : Run (fun s e => (step size s e).map Prod.fst) Clean (initial : Sender μ β κ) s) :
    Kept size s ∧
    (∃ finished waiting, InOrder size s finished waiting ∧ (finished.flatMap fun p => p.1.packets size) <+: s.fifo) ∧
    (s.sendQ = [] → s.fifo = (s.posted.flatMap fun p => p.1.packets size) ∧
      s.callbacks = s.posted.filterMap Prod.snd) ∧
    (s.sendQ ≠ [] → ∃ e s', Driving e ∧ step size s e = some (s', none)) ∧
    ∀ e s' r, step size s e = some (s', r) → (Kept size s' ↔ Clean s e) ∧
      (Driving e → remaining size s' < remaining size s) ∧
      (Clean s e → r = some true → s'.fifo = (s'.posted.flatMap fun p => p.1.packets size) ∧
        s'.callbacks = s'.posted.filterMap Prod.snd) := by
  have hkp : Kept size s := by
    apply h.invariant initial_kept
    intro s e s' hkp hcle hs
    obtain ⟨⟨s1,r⟩,hs1,rfl⟩ := map_eq_some_iff.mp hs
    exact (step_kept_iff hsi hkp hs1).mpr hcle
  have hemp : ∀ s : Sender μ β κ, Kept size s → s.sendQ = [] →
      s.fifo=(s.posted.flatMap fun p => p.1.packets size) ∧ s.callbacks=s.posted.filterMap Prod.snd := by
    intro s ⟨_,_,_,hord⟩ hq
    exact hord.of_empty hq
  have ⟨hdri,finished,waiting,hord⟩ := hkp
  refine ⟨hkp,⟨finished,waiting,hord,hord.finished_prefix⟩,hemp s hkp,driving_exists hdri,fun e s' r hs => ?_⟩
  refine ⟨step_kept_iff hsi hkp hs,fun he => driving_decreases hsi hdri he hs,?_⟩
  intro hcle hr
  subst hr
  exact hemp s' ((step_kept_iff hsi hkp hs).mpr hcle) (returned_true hs)

theorem posts_in_order_two_packets :
    ∃ s : Sender Unit ℕ ℕ, execEvents (fun s e => (step 8 s e).map Prod.fst)
        [.postMultiPacket () (List.range 9) (some 7) 1, .work 0 1, .complete 0] initial = some s ∧
      s.fifo = (s.posted.flatMap fun p => p.1.packets 8) ∧ s.callbacks = s.posted.filterMap Prod.snd := by
  refine ⟨_,rfl,(posts_in_order (by omega) (Run.refl.execEvents
    [.postMultiPacket () (List.range 9) (some 7) 1,.work 0 1,.complete 0] ?_ rfl)).2.2.1 rfl⟩
  intro s e he
  simp only [mem_cons,not_mem_nil,or_false] at he
  obtain rfl | rfl | rfl := he <;> simp [Clean,range_succ]

/-- The post of an empty message to a full fifo returns true and has produced nothing. -/
theorem empty_post_lost :
    ∃ s : Sender Unit ℕ ℕ, step 8 initial (.postMultiPacket () [] (some 7) 0) = some (s, some true) ∧
      s.fifo = [] ∧ s.callbacks = [7] ∧
      (s.posted.flatMap fun p => p.1.packets 8) = [⟨(), []⟩] :=
  ⟨_,rfl,rfl,rfl,rfl⟩

end PAMI.Shmem.Sender
