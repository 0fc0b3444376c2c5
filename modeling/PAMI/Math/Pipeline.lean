import PAMI.Math.Runs

namespace PAMI.Math

open List Option

/-- A post to a device: the buffer of the pipeline it is sent from, if any, what it holds, and what
is called when it has been sent. -/
structure Post (β κ : Type*) where
  buffer : Option ℕ
  payload : List β
  callback : Option κ
  deriving Repr

/-- A transfer through a pair of buffers: the machine that fills them, the counters of the callbacks, the posts, in their
order, and the second post that is still to be made. It notes what was done too early, too often or too late. -/
structure Transfer (M β κ : Type*) where
  machine : M
  remaining : ℕ
  starts : ℕ
  completed : List (Post β κ)
  inFlight : List (Post β κ)
  second : Option (ℕ × Option κ)
  overwritten : Bool
  ends : ℕ
  lateUses : ℕ

/-- What can happen to a transfer: the oldest post in flight completes, also inside of the call that
makes it, or the caller goes on to its second post. -/
inductive TransferEvent where
  | complete
  | resume
  deriving DecidableEq, Repr

namespace Transfer

variable {M β κ : Type*}

/-- A transfer with nothing posted but what goes before it. -/
def start (machine : M) (remaining starts : ℕ) (envelope : List (Post β κ)) : Transfer M β κ :=
  ⟨machine, remaining, starts, [], envelope, none, false, 0, 0⟩

def sent (s : Transfer M β κ) : List β := ((s.completed ++ s.inFlight).filter (·.buffer.isSome)).flatMap (·.payload)

/-- The state of the transfer is used, too late if it has ended. -/
def use (s : Transfer M β κ) : Transfer M β κ :=
  if s.ends = 0 then s else { s with lateUses := s.lateUses + 1 }

def finish (s : Transfer M β κ) : Transfer M β κ := { s.use with ends := s.ends + 1 }

variable (pack : M → ℕ → List β × M)

/-- Fills a buffer with the next elements and posts it. -/
def packAndPost (buffer n : ℕ) (callback : Option κ) (s : Transfer M β κ) : Transfer M β κ :=
  { s with
    machine := (pack s.machine n).2
    inFlight := s.inFlight ++ [⟨some buffer, (pack s.machine n).1, callback⟩]
    overwritten := s.overwritten || s.inFlight.any (·.buffer == some buffer) }

def step (run : κ → Transfer M β κ → Transfer M β κ) (s : Transfer M β κ) :
    TransferEvent → Option (Transfer M β κ)
  | .complete =>
    match s.inFlight with
    | [] => none
    | post :: inFlight =>
      let s' := { s with completed := s.completed ++ [post], inFlight := inFlight }
      match post.callback with
      | none => some s'
      | some f => some (run f s')
  | .resume =>
    match s.second with
    | none => none
    | some (n, callback) => some (packAndPost pack 1 n callback { s.use with second := none })

end Transfer

/-- A machine packs a stream: at a position it yields the next so many elements of it. -/
structure Packs {M β : Type*} (pack : M → ℕ → List β × M) (At : M → ℕ → Prop)
    (slice : ℕ → ℕ → List β) : Prop where
  pack : ∀ m o n, At m o → (pack m n).1 = slice o n ∧ At (pack m n).2 (o + n)
  slice_add : ∀ o n n', slice o (n + n') = slice o n ++ slice (o + n) n'
  slice_length : ∀ o n, (slice o n).length = n

namespace Transfer

variable {M β κ : Type*} {pack : M → ℕ → List β × M} {At : M → ℕ → Prop}
  {slice : ℕ → ℕ → List β} {s : Transfer M β κ} {o k : ℕ}

structure Sent (At : M → ℕ → Prop) (slice : ℕ → ℕ → List β) (o k : ℕ) (s : Transfer M β κ) :
    Prop where
  machine : At s.machine (o + k)
  sent : s.sent = slice o k

theorem use_of_ends (h : s.ends=0) : s.use=s := if_pos h

theorem Sent.congr {s' : Transfer M β κ} (h : Sent At slice o k s)
    (hmac : s'.machine=s.machine)
    (hpts : s'.completed ++ s'.inFlight = s.completed ++ s.inFlight) : Sent At slice o k s' := by
  refine ⟨by rw [hmac]; exact h.machine,?_⟩
  rw [← h.sent,Transfer.sent,Transfer.sent,hpts]

theorem Sent.completes {s' : Transfer M β κ} (h : Sent At slice o k s) {post : Post β κ}
    {rest : List (Post β κ)} (hfli : s.inFlight = post :: rest)
    (hmac : s'.machine=s.machine) (hcom : s'.completed = s.completed ++ [post])
    (hrs : s'.inFlight=rest) : Sent At slice o k s' := by
  apply h.congr hmac
  rw [hcom,hrs,hfli,append_assoc,singleton_append]

theorem not_any_buffer {l : List (Post β κ)} {buffer : ℕ} (h : ∀ q ∈ l, q.buffer ≠ some buffer) :
    l.any (·.buffer == some buffer) = false := by
  rw [List.any_eq_false]
  intro q hq
  simpa using h q hq

theorem Sent.start (hp : Packs pack At slice) {machine : M} (hmac : At machine o)
    {envelope : List (Post β κ)} (henv : ∀ q ∈ envelope, q.buffer=none) (remaining starts : ℕ) :
    Sent At slice o 0 (Transfer.start machine remaining starts envelope) := by
  refine ⟨hmac,?_⟩
  have hnn : envelope.filter (·.buffer.isSome) = [] := by
    rw [filter_eq_nil_iff]
    intro q hq
    simp [henv q hq]
  rw [length_eq_zero_iff.mp (hp.slice_length o 0)]
  simp [Transfer.sent,Transfer.start,hnn]

theorem Sent.packAndPost (hp : Packs pack At slice) (h : Sent At slice o k s) (buffer n : ℕ)
    (callback : Option κ) :
    Sent At slice o (k+n) (packAndPost pack buffer n callback s) := by
  obtain ⟨hpack,hmac⟩ := hp.pack s.machine (o+k) n h.machine
  refine ⟨?_,?_⟩
  · rw [← Nat.add_assoc]
    exact hmac
  · have hsn := h.sent
    rw [Transfer.sent] at hsn
    simp only [Transfer.sent,Transfer.packAndPost,filter_append,flatMap_append] at hsn ⊢
    simp [← append_assoc,hsn,hpack,hp.slice_add]

theorem Sent.length (hp : Packs pack At slice) (h : Sent At slice o k s) : s.sent.length=k := by
  rw [h.sent,hp.slice_length]

/-- What a transfer of so many elements is for: it posts the first elements of the stream, all of
them when it ends; it ends at most once, when no post is in flight or to come; and it has ended
then. -/
structure Exact (slice : ℕ → ℕ → List β) (o total : ℕ) (s : Transfer M β κ) : Prop where
  sent : ∃ k ≤ total, s.sent = slice o k
  ends_le : s.ends ≤ 1
  ended : s.ends = 1 → s.inFlight = [] ∧ s.second = none ∧ s.sent = slice o total
  enabled : s.inFlight = [] → s.second = none → s.ends = 1

section Closing

variable {run : κ → Transfer M β κ → Transfer M β κ} {f : κ} {total : ℕ} {s' : Transfer M β κ}

/-- A callback that ends the transfer and posts nothing. -/
structure EndsWith (run : κ → Transfer M β κ → Transfer M β κ) (f : κ) : Prop where
  machine : ∀ s, (run f s).machine = s.machine
  completed : ∀ s, (run f s).completed = s.completed
  inFlight : ∀ s, (run f s).inFlight = s.inFlight
  second : ∀ s, (run f s).second = s.second
  overwritten : ∀ s, (run f s).overwritten = s.overwritten
  ends : ∀ s, (run f s).ends = s.ends + 1

/-- The last post is the second one of the caller, which ends the transfer. -/
structure Waiting (f : κ) (n : ℕ) (s : Transfer M β κ) : Prop where
  second : s.second = some (n, some f)
  quiet : ∀ post ∈ s.inFlight, post.callback = none ∧ post.buffer ≠ some 1
  overwritten : s.overwritten = false
  ends : s.ends = 0

/-- The last post has been made, and it ends the transfer. -/
structure Closing (f : κ) (s : Transfer M β κ) : Prop where
  second : s.second = none
  inFlight : ∃ before last, s.inFlight = before ++ [last] ∧ (∀ post ∈ before, post.callback = none) ∧
    last.callback = some f
  overwritten : s.overwritten = false
  ends : s.ends = 0

/-- The transfer has ended. -/
structure Ended (s : Transfer M β κ) : Prop where
  second : s.second = none
  inFlight : s.inFlight = []
  overwritten : s.overwritten = false
  ends : s.ends = 1

def LastPart (At : M → ℕ → Prop) (slice : ℕ → ℕ → List β) (o total : ℕ) (f : κ)
    (s : Transfer M β κ) : Prop :=
  (∃ n k, k + n = total ∧ Waiting f n s ∧ Sent At slice o k s) ∨ (Closing f s ∨ Ended s) ∧ Sent At slice o total s

theorem Closing.complete (hf : EndsWith run f) (h : Closing f s) (hsn : Sent At slice o k s)
    (hs : step pack run s .complete = some s') :
    (Closing f s' ∨ Ended s') ∧ Sent At slice o k s' := by
  obtain ⟨before,last,hfli,hqui,hla⟩ := h.inFlight
  cases before with
  | nil =>
    simp only [step,hfli,nil_append,hla] at hs
    obtain rfl := some.inj hs
    refine ⟨.inr ⟨?_,?_,?_,?_⟩,?_⟩
    · rw [hf.second]
      exact h.second
    · rw [hf.inFlight]
    · rw [hf.overwritten]
      exact h.overwritten
    · rw [hf.ends]
      show s.ends+1=1
      rw [h.ends]
    · apply hsn.congr
      · rw [hf.machine]
      · rw [hf.completed,hf.inFlight,hfli]
        simp
  | cons post before =>
    have hps : post.callback=none := hqui post mem_cons_self
    simp only [step,hfli,cons_append,hps] at hs
    obtain rfl := some.inj hs
    refine ⟨.inl ⟨h.second,⟨before,last,rfl,fun q hq => ?_,hla⟩,h.overwritten,h.ends⟩,?_⟩
    · exact hqui q (mem_cons_of_mem _ hq)
    · exact hsn.completes hfli rfl rfl rfl

theorem LastPart.step (hp : Packs pack At slice) (hf : EndsWith run f)
    (h : LastPart At slice o total f s) {e : TransferEvent} (hs : step pack run s e = some s') :
    LastPart At slice o total f s' := by
  rcases h with ⟨n,k,hk,hwait,hsn⟩ | ⟨hclo | heed,hsn⟩
  · cases e with
    | complete =>
      left
      cases hfli : s.inFlight with
      | nil => simp [Transfer.step,hfli] at hs
      | cons post rest =>
        have hps := hwait.quiet post (by rw [hfli]; exact mem_cons_self)
        simp only [Transfer.step,hfli,hps.1] at hs
        obtain rfl := some.inj hs
        refine ⟨n,k,hk,⟨hwait.second,fun q hq => ?_,hwait.overwritten,hwait.ends⟩,?_⟩
        · exact hwait.quiet q (by rw [hfli]; exact mem_cons_of_mem _ hq)
        · exact hsn.completes hfli rfl rfl rfl
    | resume =>
      right
      simp only [Transfer.step,hwait.second,use_of_ends hwait.ends] at hs
      obtain rfl := some.inj hs
      have hsn' : Sent At slice o k { s with second := none } := hsn.congr rfl rfl
      refine ⟨.inl ⟨rfl,⟨s.inFlight,_,rfl,fun q hq => (hwait.quiet q hq).1,rfl⟩,?_,hwait.ends⟩,?_⟩
      · have hnn := not_any_buffer fun q hq => (hwait.quiet q hq).2
        show (s.overwritten || s.inFlight.any (·.buffer == some 1))=false
        rw [hwait.overwritten,hnn]
        rfl
      · rw [← hk]
        exact hsn'.packAndPost hp 1 n (some f)
  · cases e with
    | complete => exact .inr (hclo.complete hf hsn hs)
    | resume => simp [Transfer.step,hclo.second] at hs
  · cases e with
    | complete => simp [Transfer.step,heed.inFlight] at hs
    | resume => simp [Transfer.step,heed.second] at hs

theorem LastPart.exact (h : LastPart At slice o total f s) : Exact slice o total s := by
  rcases h with ⟨n,k,hk,hwait,hsn⟩ | ⟨hclo | heed,hsn⟩
  · refine ⟨⟨k,by omega,hsn.sent⟩,by rw [hwait.ends]; omega,?_,?_⟩
    · intro h
      rw [hwait.ends] at h
      cases h
    · intro _ h
      rw [hwait.second] at h
      cases h
  · obtain ⟨before,last,hfli,-⟩ := hclo.inFlight
    refine ⟨⟨total,Nat.le_refl _,hsn.sent⟩,by rw [hclo.ends]; omega,?_,?_⟩
    · intro h
      rw [hclo.ends] at h
      cases h
    · intro h
      rw [hfli] at h
      simp at h
  · refine ⟨⟨total,Nat.le_refl _,hsn.sent⟩,Nat.le_of_eq heed.ends,?_,?_⟩
    · intro _
      exact ⟨heed.inFlight,heed.second,hsn.sent⟩
    · intro _ _
      exact heed.ends

theorem LastPart.overwritten (h : LastPart At slice o total f s) : s.overwritten=false := by
  rcases h with ⟨n,k,-,hwait,-⟩ | ⟨hclo | heed,-⟩
  · exact hwait.overwritten
  · exact hclo.overwritten
  · exact heed.overwritten

def left (s : Transfer M β κ) : ℕ := s.inFlight.length + if s.second.isSome then 2 else 0

theorem complete_of_inFlight (pack : M → ℕ → List β × M) (run : κ → Transfer M β κ → Transfer M β κ)
    (h : s.inFlight≠[]) : ∃ s', Transfer.step pack run s .complete = some s' := by
  obtain ⟨post,rest,hfli⟩ := exists_cons_of_ne_nil h
  cases hcll : post.callback with
  | none | some g => exact ⟨_,by simp only [Transfer.step,hfli,hcll]; rfl⟩

theorem LastPart.enabled (pack : M → ℕ → List β × M) (run : κ → Transfer M β κ → Transfer M β κ)
    (h : LastPart At slice o total f s) (hen : s.ends≠1) :
    ∃ e s', Transfer.step pack run s e = some s' := by
  rcases h with ⟨n,k,-,hwait,-⟩ | ⟨hclo | heed,-⟩
  · exact ⟨.resume,_,by simp only [Transfer.step,hwait.second]; rfl⟩
  · obtain ⟨before,last,hfli,-⟩ := hclo.inFlight
    exact ⟨.complete,complete_of_inFlight pack run (by simp [hfli])⟩
  · exact absurd heed.ends hen

theorem LastPart.left_lt (hf : EndsWith run f) (h : LastPart At slice o total f s)
    {e : TransferEvent} (hs : Transfer.step pack run s e = some s') : s'.left < s.left := by
  rcases h with ⟨n,k,-,hwait,-⟩ | ⟨hclo | heed,-⟩
  · cases e with
    | complete =>
      cases hfli : s.inFlight with
      | nil => simp [Transfer.step,hfli] at hs
      | cons post rest =>
        have hps := hwait.quiet post (by rw [hfli]; exact mem_cons_self)
        simp only [Transfer.step,hfli,hps.1] at hs
        obtain rfl := some.inj hs
        simp [left,hfli]
    | resume =>
      simp only [Transfer.step,hwait.second,use_of_ends hwait.ends] at hs
      obtain rfl := some.inj hs
      simp [left,hwait.second,packAndPost]
  · obtain ⟨before,last,hfli,hqui,hla⟩ := hclo.inFlight
    cases e with
    | complete =>
      cases before with
      | nil =>
        simp only [Transfer.step,hfli,nil_append,hla] at hs
        obtain rfl := some.inj hs
        simp [left,hf.inFlight,hf.second,hfli]
      | cons post before =>
        have hps : post.callback=none := hqui post mem_cons_self
        simp only [Transfer.step,hfli,cons_append,hps] at hs
        obtain rfl := some.inj hs
        simp [left,hfli]
    | resume => simp [Transfer.step,hclo.second] at hs
  · cases e with
    | complete => simp [Transfer.step,heed.inFlight] at hs
    | resume => simp [Transfer.step,heed.second] at hs

theorem LastPart.run_end (hp : Packs pack At slice) (hf : EndsWith run f)
    (h : LastPart At slice o total f s) :
    ∃ s', Run (Transfer.step pack run) (fun _ _ => True) s s' ∧ s'.ends=1 := by
  generalize hn : s.left=n
  induction n using Nat.strongRecOn generalizing s with
  | _ n ih =>
    by_cases hen : s.ends=1
    · exact ⟨s,.refl,hen⟩
    · obtain ⟨e,s1,hs⟩ := h.enabled pack run hen
      obtain ⟨s',hrun,hen'⟩ := ih s1.left (hn ▸ h.left_lt hf hs) (h.step hp hf hs) rfl
      exact ⟨s',(Run.refl.step trivial hs).trans hrun,hen'⟩

end Closing

end Transfer

end PAMI.Math
