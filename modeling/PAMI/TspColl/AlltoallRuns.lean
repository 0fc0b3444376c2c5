import PAMI.TspColl.Allgather
import PAMI.TspColl.AlltoallRanks

namespace PAMI.TspColl

open PAMI.Math Option Function

variable {N : ℕ} {β : Type*} {x : Alltoall N β}

theorem Alltoall.round_cases {maxPending : ℕ} {r : Fin N} {c : A2aCall β} {k : Alltoall N β × Option (Fin N)}
    (h : x.round maxPending r c = some k) : ∃ l ls, x.loops = l :: ls ∧
      ((l.posted=true ∧ k=(x.increment l ls, none)) ∨
        (l.posted=false ∧ (N≤l.j ∨ x.bufferFull maxPending = true) ∧ k=(x.leave l ls, none)) ∨
        (l.posted=false ∧ l.j<N ∧ x.current=r ∧
          k=(Alltoall.check { x.copyOwn r c with loops := { l with posted := true } :: ls }, none)) ∨
        (l.posted=false ∧ l.j<N ∧ x.current≠r ∧
          k=({ x.post with loops := { l with posted := true } :: ls }, some x.current))) := by
  rw [Alltoall.round] at h
  split at h
  case h_1 => contradiction
  case h_2 l ls hx =>
    refine ⟨l,ls,hx,?_⟩
    split at h
    case isTrue hpst => exact .inl ⟨hpst,(some.inj h).symm⟩
    case isFalse hpst =>
      rw [Bool.not_eq_true] at hpst
      split at h
      case isTrue hend => exact .inr (.inl ⟨hpst,hend,(some.inj h).symm⟩)
      case isFalse hend =>
        have hj : l.j<N := not_le.mp fun hle => hend (.inl hle)
        split at h
        case isTrue hown => exact .inr (.inr (.inl ⟨hpst,hj,hown,(some.inj h).symm⟩))
        case isFalse hoth => exact .inr (.inr (.inr ⟨hpst,hj,hoth,(some.inj h).symm⟩))

theorem Ranked.congr {C : A2aCalls N β} {r : Fin N}
    {posted done incoming complete posted' done' incoming' complete' : ℕ → Fin N → Bool}
    (h : Ranked C r x posted done incoming complete) (hpst : ∀ m b, posted' m b = posted m b)
    (hdn : ∀ m b, done' m b = done m b) (hinc : ∀ m b, incoming' m b = incoming m b)
    (hcom : ∀ m b, complete' m b = complete m b) : Ranked C r x posted' done' incoming' complete' := by
  obtain rfl : posted'=posted := funext fun m => funext (hpst m)
  obtain rfl : done'=done := funext fun m => funext (hdn m)
  obtain rfl : incoming'=incoming := funext fun m => funext (hinc m)
  obtain rfl : complete'=complete := funext fun m => funext (hcom m)
  exact h

namespace Alltoalls

variable {C : A2aCalls N β} {s s' : Alltoalls N β} {a b r : Fin N} {n maxPending : ℕ} {m : PhaseMessage (List β)}

theorem message_setMessage (s : Alltoalls N β) (a : Fin N) (n : ℕ) (b : Fin N) (m : PhaseMessage (List β)) (a' : Fin N)
    (n' : ℕ) (b' : Fin N) : (s.setMessage a n b m).message a' n' b' =
      if a'=a ∧ n'=n ∧ b'=b then m else s.message a' n' b' := rfl

theorem same_setMessage {γ : Type*} (f : PhaseMessage (List β) → γ) (hf : f m = f (s.message a n b)) (a' : Fin N) (n' : ℕ)
    (b' : Fin N) : f ((s.setMessage a n b m).message a' n' b') = f (s.message a' n' b') := by
  rw [message_setMessage]
  split
  case isTrue heq =>
    obtain ⟨rfl,rfl,rfl⟩ := heq
    exact hf
  case isFalse => rfl

section

variable (f : PhaseMessage (List β) → Bool) (hf : f m = true)
include f hf

theorem set_setMessage (a' : Fin N) (n' : ℕ) (b' : Fin N) :
    f ((s.setMessage a n b m).message a' n' b') = (f (s.message a' n' b') || decide (a'=a ∧ n'=n ∧ b'=b)) := by
  rw [message_setMessage]
  split
  case isTrue heq => rw [decide_eq_true heq,Bool.or_true,hf]
  case isFalse hne => rw [decide_eq_false hne,Bool.or_false]

theorem set_from (n' : ℕ) (b' : Fin N) :
    f ((s.setMessage a n b m).message a n' b') = mark (fun n b => f (s.message a n b)) n b n' b' := by
  rw [set_setMessage f hf,mark,decide_eq_decide.mpr (and_iff_right rfl)]

theorem set_to (n' : ℕ) (a' : Fin N) :
    f ((s.setMessage a n b m).message a' n' b) = mark (fun n a => f (s.message a n b)) n a n' a' := by
  rw [set_setMessage f hf,mark]
  refine congrArg _ (decide_eq_decide.mpr ?_)
  rw [and_left_comm,and_iff_left rfl,and_comm (a := n'=n)]

end

/-- What holds in all runs. -/
structure Sound (C : A2aCalls N β) (s : Alltoalls N β) : Prop where
  ranked : ∀ r, Ranked C r (s.rank r) (fun n b => (s.message r n b).posted) (fun n b => (s.message r n b).sent)
    (fun n a => (s.message a n r).incoming) fun n a => (s.message a n r).complete
  ordered : ∀ a n b, (s.message a n b).Ordered
  value : ∀ a n b, ∀ d ∈ (s.message a n b).data, d = (C.call a n).sendBlock b

theorem sound_new (sndstartedcount : Fin N → Bool → ℕ) (rbuf : Fin N → ℕ → β) : Sound C (new sndstartedcount rbuf) :=
  ⟨fun _ => Ranked.new _ _,fun _ _ _ => ⟨fun h => by contradiction,fun h => by contradiction,
    fun h => by contradiction,fun h => by contradiction⟩,fun _ _ _ _ h => by contradiction⟩

section

variable (h : Sound C s)
include h

theorem Sound.setRank
    (hx : Ranked C r x (fun n b => (s.message r n b).posted) (fun n b => (s.message r n b).sent)
      (fun n a => (s.message a n r).incoming) fun n a => (s.message a n r).complete) :
    Sound C (s.setRank r x) := by
  refine ⟨fun r' => ?_,h.ordered,h.value⟩
  by_cases heq : r'=r
  · subst heq
    simp only [Alltoalls.setRank,update_self]
    exact hx
  · simp only [Alltoalls.setRank,update_of_ne heq]
    exact h.ranked r'

theorem Sound.update (hord : m.Ordered) (hval : ∀ d ∈ m.data, d = (C.call a n).sendBlock b)
    (hout : r=a ∨ m.posted=(s.message a n b).posted ∧ m.sent=(s.message a n b).sent)
    (hin : r=b ∨ m.incoming=(s.message a n b).incoming ∧ m.complete=(s.message a n b).complete)
    (hr : Ranked C r x (fun n' b' => ((s.setMessage a n b m).message r n' b').posted)
      (fun n' b' => ((s.setMessage a n b m).message r n' b').sent)
      (fun n' a' => ((s.setMessage a n b m).message a' n' r).incoming)
      fun n' a' => ((s.setMessage a n b m).message a' n' r).complete) :
    Sound C ((s.setMessage a n b m).setRank r x) := by
  refine ⟨fun r' => ?_,fun a' n' b' => ?_,fun a' n' b' => ?_⟩
  · by_cases heq : r'=r
    · subst heq
      simp only [Alltoalls.setRank,update_self]
      exact hr
    · have hout' : ∀ f : PhaseMessage (List β) → Bool, (r=a ∨ f m = f (s.message a n b)) → ∀ n' b',
          f ((s.setMessage a n b m).message r' n' b') = f (s.message r' n' b') := by
        rintro f (rfl | hf) n' b'
        · exact congrArg f (if_neg fun hkey => heq hkey.1)
        · exact same_setMessage f hf _ _ _
      have hin' : ∀ f : PhaseMessage (List β) → Bool, (r=b ∨ f m = f (s.message a n b)) → ∀ n' a',
          f ((s.setMessage a n b m).message a' n' r') = f (s.message a' n' r') := by
        rintro f (rfl | hf) n' a'
        · exact congrArg f (if_neg fun hkey => heq hkey.2.2)
        · exact same_setMessage f hf _ _ _
      simp only [Alltoalls.setRank,update_of_ne heq]
      exact (h.ranked r').congr (hout' PhaseMessage.posted (hout.imp_right And.left))
        (hout' PhaseMessage.sent (hout.imp_right And.right)) (hin' PhaseMessage.incoming (hin.imp_right And.left))
        (hin' PhaseMessage.complete (hin.imp_right And.right))
  · change ((s.setMessage a n b m).message a' n' b').Ordered
    rw [message_setMessage]
    split
    case isTrue => exact hord
    case isFalse => exact h.ordered a' n' b'
  · change ∀ d ∈ ((s.setMessage a n b m).message a' n' b').data, _
    rw [message_setMessage]
    split
    case isTrue heq =>
      obtain ⟨rfl,rfl,rfl⟩ := heq
      exact hval
    case isFalse => exact h.value a' n' b'

theorem Sound.start (hs : s.start C.call r = some s') : Sound C s' := by
  obtain ⟨hmem,rfl⟩ := ite_some_none_eq_some.mp hs
  exact h.setRank ((h.ranked r).reset hmem)

theorem Sound.repost (hs : s.repost r = some s') : Sound C s' := by
  obtain ⟨⟨hwr,hid⟩,rfl⟩ := ite_some_none_eq_some.mp hs
  exact h.setRank ((h.ranked r).repost hwr (List.isEmpty_iff.mp hid))

theorem Sound.round (hok : s.InTime maxPending (.round r)) (hs : s.round maxPending C.call r = some s') :
    Sound C s' := by
  have hr := h.ranked r
  obtain ⟨k,hk,rfl⟩ := map_eq_some_iff.mp hs
  obtain ⟨l,ls,hx,⟨hpst,rfl⟩ | ⟨hpst,hend,rfl⟩ | ⟨hpst,hj,hown,rfl⟩ | ⟨hpst,hj,hoth,rfl⟩⟩ :=
    Alltoall.round_cases hk
  · exact h.setRank (hr.increment hx hpst)
  · refine h.setRank (hr.leave hx hpst ?_)
    obtain hla | hfull := hend
    · refine .inr (decide_eq_true ?_)
      have hloo := hr.loops
      rw [hx] at hloo
      obtain ⟨-,-,hall⟩ | ⟨-,hat⟩ := hloo.top l rfl
      · exact hall
      · have hj := hat.j
        rw [hpst] at hj
        exact hla.trans hj.le
    · obtain hta | hall | hnot := hok
      · rw [hx] at hta
        exact .inl hta
      · exact .inr hall
      · rw [hfull] at hnot
        contradiction
  · exact h.setRank (hr.copyOwn hx hpst hj hown)
  · refine h.update ⟨fun _ => rfl,(h.ordered _ _ _).sent,(h.ordered _ _ _).incoming,(h.ordered _ _ _).complete⟩
      (h.value _ _ _) (.inl rfl) (.inr ⟨rfl,rfl⟩) ?_
    exact (hr.post hx hpst hj hoth).congr (set_from PhaseMessage.posted rfl)
      (fun n' b' => same_setMessage PhaseMessage.sent (by rfl) r n' b')
      (fun n' a' => same_setMessage PhaseMessage.incoming (by rfl) a' n' r)
      fun n' a' => same_setMessage PhaseMessage.complete (by rfl) a' n' r

theorem Sound.transmit (hs : s.transmit C.call a n b = some s') : Sound C s' := by
  obtain ⟨⟨hpst,hnn⟩,rfl⟩ := ite_some_none_eq_some.mp hs
  have hnn := isNone_iff_eq_none.mp hnn
  have ha := h.ranked a
  have hear : ∀ f : PhaseMessage (List β) → Bool,
      (f (s.message a n b)=true → (s.message a n b).data.isSome) → f (s.message a n b)=false := by
    intro f hf
    rw [← Bool.not_eq_true]
    intro htrue
    rw [hnn] at hf
    exact Bool.false_ne_true (hf htrue)
  -- A message that is not sent is of the operation that its sender is in, and its queue is configured for that.
  have hn : n=(s.rank a).counter := by
    obtain ⟨hm,hne,hlt | ⟨heq,-⟩⟩ := (ha.sends.posted_iff n b).mp hpst
    · have hsn := ha.sends.past n b hm hlt hne
      rw [hear PhaseMessage.sent (h.ordered a n b).sent] at hsn
      contradiction
    · exact heq
  have hcon : (s.rank a).sndpwq b=n := by
    subst hn
    exact ha.sends.configured b hpst
  have hsm : (s.setMessage a n b { s.message a n b with
      data := some ((C.call a ((s.rank a).sndpwq b)).sendBlock b) })=(s.setMessage a n b { s.message a n b with
      data := some ((C.call a ((s.rank a).sndpwq b)).sendBlock b) }).setRank a (s.rank a) := by
    simp only [Alltoalls.setRank,setMessage,update_eq_self]
  rw [hsm]
  refine h.update ⟨fun _ => hpst,fun _ => rfl,fun _ => rfl,fun _ => rfl⟩ (fun d hd => ?_) (.inr ⟨rfl,rfl⟩)
    (.inr ⟨rfl,rfl⟩) ?_
  · obtain rfl := some.inj hd
    rw [hcon]
  · exact ha.congr (fun n' b' => same_setMessage PhaseMessage.posted (by rfl) a n' b')
      (fun n' b' => same_setMessage PhaseMessage.sent (by rfl) a n' b')
      (fun n' a' => same_setMessage PhaseMessage.incoming (by rfl) a' n' a)
      fun n' a' => same_setMessage PhaseMessage.complete (by rfl) a' n' a

theorem Sound.senddone (hs : s.senddone a n b = some s') : Sound C s' := by
  obtain ⟨⟨hda,hfre⟩,rfl⟩ := ite_some_none_eq_some.mp hs
  have hord := h.ordered a n b
  obtain ⟨-,ha⟩ := (h.ranked a).senddone (n := n) (b := b) (hord.data hda) hfre
  refine h.update ⟨hord.data,fun _ => hda,hord.incoming,hord.complete⟩ (h.value a n b) (.inl rfl)
    (.inr ⟨rfl,rfl⟩) ?_
  exact ha.congr (fun n' b' => same_setMessage PhaseMessage.posted (by rfl) a n' b') (set_from PhaseMessage.sent rfl)
    (fun n' a' => same_setMessage PhaseMessage.incoming (by rfl) a' n' a)
    fun n' a' => same_setMessage PhaseMessage.complete (by rfl) a' n' a

theorem Sound.incoming (hok : s.InTime maxPending (.incoming a n b)) (hs : s.incoming C.call a n b = some s') :
    Sound C s' := by
  obtain ⟨hfre,hs⟩ := ite_none_left_eq_some.mp hs
  obtain ⟨d,hd,rfl⟩ := map_eq_some_iff.mp hs
  obtain rfl := h.value a n b d hd
  have hord := h.ordered a n b
  have hso : (s.message a n b).data.isSome := isSome_of_eq_some hd
  obtain ⟨hm,hne,-⟩ := ((h.ranked a).sends.posted_iff n b).mp (hord.data hso)
  have hb := (h.ranked b).arrive (n := n) (a := a) hm hok hne.symm (Bool.not_eq_true _ ▸ hfre)
  refine h.update ⟨hord.data,hord.sent,fun _ => hso,hord.complete⟩ (h.value a n b) (.inr ⟨rfl,rfl⟩)
    (.inl rfl) ?_
  exact hb.congr (fun n' b' => same_setMessage PhaseMessage.posted (by rfl) b n' b')
    (fun n' b' => same_setMessage PhaseMessage.sent (by rfl) b n' b') (set_to PhaseMessage.incoming rfl)
    fun n' a' => same_setMessage PhaseMessage.complete (by rfl) a' n' b

theorem Sound.recvcomplete (hs : s.recvcomplete a n b = some s') : Sound C s' := by
  obtain ⟨⟨hinc,hfre⟩,rfl⟩ := ite_some_none_eq_some.mp hs
  have hord := h.ordered a n b
  have hb := (h.ranked b).recvcomplete (n := n) (a := a) hinc hfre
  refine h.update ⟨hord.data,hord.sent,hord.incoming,fun _ => hord.incoming hinc⟩ (h.value a n b)
    (.inr ⟨rfl,rfl⟩) (.inl rfl) ?_
  exact hb.congr (fun n' b' => same_setMessage PhaseMessage.posted (by rfl) b n' b')
    (fun n' b' => same_setMessage PhaseMessage.sent (by rfl) b n' b')
    (fun n' a' => same_setMessage PhaseMessage.incoming (by rfl) a' n' b) (set_to PhaseMessage.complete rfl)

end

/-- Nothing is under way: no `kick_internal`, no work in a queue, and no message. -/
def Quiet (s : Alltoalls N β) : Prop := (∀ r, (s.rank r).loops = [] ∧ (s.rank r).work = 0) ∧
    ∀ a n b, (s.message a n b).posted = true → (s.message a n b).sent = true ∧ (s.message a n b).complete = true

theorem Sound.all_posted (h : Sound C s) (hq : s.Quiet) (hn : 0<n) (hle : n≤(s.rank a).counter) (hne : b≠a) :
    (s.message a n b).posted=true := by
  have ha := h.ranked a
  refine (ha.sends.posted_iff n b).mpr ⟨hn,hne,?_⟩
  obtain hlt | rfl := lt_or_eq_of_le hle
  · exact .inl hlt
  · refine .inr ⟨rfl,(offset_lt a b).trans_le ?_⟩
    obtain ⟨hid,hwr⟩ := hq.1 a
    have hlf := ha.loops.idle hid
    rw [hwr] at hlf
    by_contra hlt
    rw [if_pos ⟨hn,not_le.mp hlt⟩] at hlf
    contradiction

theorem Sound.quiet (h : Sound C s) (hq : s.Quiet) (hn : 0<n) (hall : ∀ r, n≤(s.rank r).counter) (r : Fin N) :
    n ∈ (s.rank r).completions := by
  have hr := h.ranked r
  refine hr.mem_completions.mpr ⟨hn,?_⟩
  obtain hlt | rfl := lt_or_eq_of_le (hall r)
  · exact .inl hlt
  · refine .inr ⟨rfl,(Ranked.isdone_iff hr.sends hr.recvs hn).mpr ⟨?_,fun b hb => ?_,fun a ha => ?_⟩⟩
    · refine le_antisymm (hr.sends.started_le hn) ?_
      by_contra hlt
      have hlf := hr.loops.idle (hq.1 r).1
      rw [(hq.1 r).2,if_pos ⟨hn,not_le.mp hlt⟩] at hlf
      contradiction
    · exact (hq.2 r _ b (h.all_posted hq hn le_rfl hb)).1
    · exact (hq.2 a _ r (h.all_posted hq hn (hall a) ha.symm)).2

/-- One byte for each rank, which is the index of its sender. -/
def indices : A2aCalls 2 ℕ where
  call := fun r _ => ⟨fun _ => r, fun _ => 7, 1, 1, id, Allgather.bytes, 1⟩
  len_eq := fun _ _ _ => rfl
  distinct := fun _ _ => Allgather.bytes_injective.injOn

def deliver (a : Fin 2) (n : ℕ) (b : Fin 2) : List (A2aEvent 2) :=
  [.transmit a n b, .senddone a n b, .incoming a n b, .recvcomplete a n b]

def idle : Alltoalls 2 ℕ := new (fun _ _ => 0) fun _ _ => 0

end Alltoalls

end PAMI.TspColl
