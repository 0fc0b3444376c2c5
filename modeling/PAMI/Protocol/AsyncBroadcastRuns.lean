import Mathlib.Data.List.Nodup
import PAMI.Protocol.AsyncBroadcast

namespace PAMI.Protocol

open PAMI.Math Function List Option Nat Bool

section Queues

variable {key : ℕ → ℕ} {origin : ℕ → Origin} {q : List AsyncElem} {P P' : ℕ → Prop} {n : ℕ}
  {matched : List (ℕ × ℕ)}

def Queued (key : ℕ → ℕ) (origin : ℕ → Origin) (q : List AsyncElem) (P : ℕ → Prop) : Prop :=
  ∃ l : List ℕ, q = l.map (fun n => ⟨key n, origin n⟩) ∧ (∀ n, n ∈ l ↔ P n) ∧
    l.Nodup ∧ l.Pairwise fun a b => key a = key b → a < b

theorem Queued.nil (h : ∀ n, ¬ P n) : Queued key origin [] P :=
  ⟨[],rfl,fun n => iff_of_false not_mem_nil (h n),nodup_nil,.nil⟩

section

variable (h : Queued key origin q P)
include h

theorem Queued.congr (hP : ∀ n, P' n ↔ P n) : Queued key origin q P' := by
  obtain ⟨l,hq,hmem,hl⟩ := h
  exact ⟨l,hq,fun n => (hmem n).trans (hP n).symm,hl⟩

theorem Queued.push (hnew : ¬ P n) (hla : ∀ m, P m → key m = key n → m<n) (hP : ∀ m, P' m ↔ P m ∨ m=n) :
    Queued key origin (q ++ [⟨key n,origin n⟩]) P' := by
  obtain ⟨l,hq,hmem,hnod,hsor⟩ := h
  refine ⟨l ++ [n],by rw [hq,map_append]; rfl,fun m => ?_,?_,?_⟩
  · rw [mem_append,mem_singleton,hmem,hP]
  · rw [nodup_append_comm,singleton_append,nodup_cons,hmem]
    exact ⟨hnew,hnod⟩
  · apply pairwise_append.mpr
    refine ⟨hsor,pairwise_singleton _ _,fun a ha b hb hkey => ?_⟩
    rw [mem_singleton.mp hb] at hkey ⊢
    exact hla a ((hmem a).mp ha) hkey

theorem Queued.find (hn : P n) (hfir : ∀ m, P m → key m = key n → n ≤ m) (hP : ∀ m, P' m ↔ P m ∧ m≠n) :
    ∃ q', findAndDelete q (key n) = some (origin n, q') ∧ Queued key origin q' P' := by
  obtain ⟨l,rfl,hmem,hnod,hsor⟩ := h
  obtain ⟨l1,l2,rfl⟩ := append_of_mem ((hmem n).mpr hn)
  have hbef : ∀ m ∈ l1, key m ≠ key n := by
    intro m hm hkey
    have hle := hfir m ((hmem m).mp (mem_append_left _ hm)) hkey
    have hlt := (pairwise_append.mp hsor).2.2 m hm n mem_cons_self hkey
    omega
  have hnn : (l1.map fun m => (⟨key m,origin m⟩ : AsyncElem)).find? (fun e => e.key=key n)=none := by
    rw [List.find?_eq_none]
    intro e he
    obtain ⟨m,hm,rfl⟩ := List.mem_map.mp he
    simpa using hbef m hm
  refine ⟨(l1 ++ l2).map fun m => ⟨key m,origin m⟩,?_,l1 ++ l2,rfl,fun m => ?_,?_,?_⟩
  · rw [findAndDelete,map_append,map_cons,List.find?_append,hnn,eraseP_append_right]
    · simp
    · intro e he
      simpa using List.find?_eq_none.mp hnn e he
  · rw [hP,← hmem]
    have hnot := nodup_middle.mp hnod
    constructor
    · intro hm
      refine ⟨?_,fun heq => (nodup_cons.mp hnot).1 (heq ▸ hm)⟩
      rw [mem_append,mem_cons]
      exact (mem_append.mp hm).imp_right .inr
    · rintro ⟨hm,hne⟩
      rw [mem_append,mem_cons] at hm
      rw [mem_append]
      exact hm.imp_right fun hm => hm.resolve_left hne
  · exact (nodup_cons.mp (nodup_middle.mp hnod)).2
  · exact hsor.sublist ((List.Sublist.refl _).append (sublist_cons_self n l2))

theorem Queued.find_none {k : ℕ} (hno : ∀ m, P m → key m ≠ k) : findAndDelete q k = none := by
  obtain ⟨l,rfl,hmem,-⟩ := h
  rw [findAndDelete,map_eq_none_iff,List.find?_eq_none]
  intro e he
  obtain ⟨m,hm,rfl⟩ := List.mem_map.mp he
  simpa using hno m ((hmem m).mp hm)

end

/-- Each broadcast of which `P` holds was brought together with its own message, once. -/
def Matches (matched : List (ℕ × ℕ)) (P : ℕ → Prop) : Prop :=
  ∃ l : List ℕ, matched = l.map (fun n => (n, n)) ∧ (∀ n, n ∈ l ↔ P n) ∧ l.Nodup

theorem Matches.congr (h : Matches matched P) (hP : ∀ n, P' n ↔ P n) : Matches matched P' := by
  obtain ⟨l,hl,hmem,hnod⟩ := h
  exact ⟨l,hl,fun n => (hmem n).trans (hP n).symm,hnod⟩

theorem Matches.push (h : Matches matched P) (hnew : ¬ P n) (hP : ∀ m, P' m ↔ P m ∨ m=n) :
    Matches (matched ++ [(n, n)]) P' := by
  obtain ⟨l,hl,hmem,hnod⟩ := h
  refine ⟨l ++ [n],by rw [hl,map_append]; rfl,fun m => ?_,?_⟩
  · rw [mem_append,mem_singleton,hmem,hP]
  · rw [nodup_append_comm,singleton_append,nodup_cons,hmem]
    exact ⟨hnew,hnod⟩

end Queues

/-- What one broadcast has come to at an endpoint that is not alone in its geometry; `early` says that its
message came before its post. -/
inductive Stage
  | idle
  | waiting
  | receiving (early posted : Bool)
  | sending (early posted : Bool)
  | completed
  | done (early : Bool)
  deriving DecidableEq, Repr

def Origin.num : Origin → ℕ
  | .post n => n
  | .arrival n => n

/-- An endpoint sends the data of a broadcast on. -/
def AsyncBroadcasts.relays {β : Type*} (F : AsyncBroadcasts β) (n : ℕ) : Bool := F.ndst (F.xfer n).root ≠ 0

theorem AsyncBroadcasts.relays_true {β : Type*} (F : AsyncBroadcasts β) {n : ℕ}
    (h : F.ndst (F.xfer n).root ≠ 0) : F.relays n = true := decide_eq_true h

theorem AsyncBroadcasts.relays_false {β : Type*} (F : AsyncBroadcasts β) {n : ℕ}
    (h : F.ndst (F.xfer n).root = 0) : F.relays n = false := decide_eq_false (not_not.mpr h)

namespace Stage

variable {β : Type*} (F : AsyncBroadcasts β) (n : ℕ)

/-- The post of the broadcast. The root sends at once. -/
def post (root : Bool) : Stage → Stage
  | idle => if root then sending false true else waiting
  | receiving true false => receiving true true
  | sending true false => sending true true
  | completed => done true
  | x => x

def arrive : Stage → Stage
  | idle => receiving true false
  | waiting => receiving false true
  | x => x

def finish (early posted : Bool) : Stage := if posted then done early else completed

/-- The data is complete, and an endpoint that has destinations sends it on. -/
def receive (relays : Bool) : Stage → Stage
  | receiving early posted => if relays then sending early posted else finish early posted
  | x => x

@[grind =] def sent : Stage → Stage
  | sending early posted => finish early posted
  | x => x

@[simp] def posted : Stage → Bool
  | idle => false
  | waiting => true
  | receiving _ p => p
  | sending _ p => p
  | completed => false
  | done _ => true

@[simp] def arrived : Stage → Bool
  | idle => false
  | waiting => false
  | _ => true

def unexpected : Stage → Bool
  | receiving true false => true
  | sending true false => true
  | completed => true
  | _ => false

@[simp] def opPost : Stage → Option (CollOp β)
  | waiting => some (AsyncState.postedOp F n (F.seq (n + 1)))
  | receiving false _ => some { AsyncState.postedOp F n (F.seq (n + 1)) with receiving := some (F.payload n) }
  | sending false _ => some { AsyncState.postedOp F n (F.seq (n + 1)) with sending := true }
  | _ => none

/-- The operation of message `n`, whose post may have been copied to it. -/
def early (posted : Bool) : CollOp β where
  xfer := if posted then some n else none
  localPosted := posted
  earlyArrival := true
  eaq := [n]
  root := (F.xfer n).root
  buffer := .arrival n
  connId := F.mgr.getConnectionId F.endpoint (F.seq (n + 1))
  receiving := none
  sending := false

@[simp] def opArrival : Stage → Option (CollOp β)
  | receiving true posted => some { early F n posted with receiving := some (F.payload n) }
  | sending true posted => some { early F n posted with sending := true }
  | completed => some (early F n false)
  | _ => none

def descriptor (flag : EAFlag) : EADescriptor where
  root := (F.xfer n).root
  bytes := (F.payload n).length
  buf := if (F.payload n).length = 0 then none else some n
  flag := flag

@[simp] def ead : Stage → Option EADescriptor
  | receiving true _ => some (descriptor F n .started)
  | sending true _ => some (descriptor F n .started)
  | completed => some (descriptor F n .completed)
  | _ => none

@[simp] def eads : Stage → Ledger
  | receiving true _ => ⟨1, 0⟩
  | sending true _ => ⟨1, 0⟩
  | completed => ⟨1, 0⟩
  | done true => ⟨1, 1⟩
  | _ => ⟨0, 0⟩

/-- The early arrival buffer, if there is anything to be put in. -/
@[simp] def eab (x : Stage) : Option (EABuffer β) :=
  if (F.payload n).length = 0 then none else
    match x with
    | receiving true _ => some ⟨(F.payload n).length ≤ 32768, none⟩
    | sending true _ => some ⟨(F.payload n).length ≤ 32768, some (F.payload n)⟩
    | completed => some ⟨(F.payload n).length ≤ 32768, some (F.payload n)⟩
    | _ => none

@[simp] def eabs (x : Stage) : Ledger := if (F.payload n).length = 0 then ⟨0, 0⟩ else x.eads

@[simp] def user : Stage → List β
  | sending false _ => F.payload n
  | done _ => F.payload n
  | _ => (F.xfer n).buf

/-- How often the buffer of an endpoint that is not the root was written. -/
@[simp] def written (x : Stage) : ℕ :=
  if (F.payload n).length = 0 ∨ (F.xfer n).root = F.endpoint then 0 else
    match x with
    | sending false _ => 1
    | done _ => 1
    | _ => 0

@[simp] def dones : Stage → ℕ
  | done _ => 1
  | _ => 0

/-- The stages that a broadcast can come to, for the root and the other endpoints. -/
def Valid (x : Stage) : Prop :=
  if (F.xfer n).root = F.endpoint then x = idle ∨ x = sending false true ∨ x = done false
  else match x with
    | receiving false posted => posted = true
    | sending early posted => 0 < F.ndst (F.xfer n).root ∧ (early = false → posted = true)
    | _ => True

end Stage

section Valid

variable {β : Type*} {F : AsyncBroadcasts β} {n : ℕ} {posted : Bool} {x : Stage}

theorem Stage.Valid.receiving {early : Bool} (h : (Stage.receiving early posted).Valid F n) :
    (F.xfer n).root≠F.endpoint ∧ (early=false → posted=true) := by
  by_cases hrt : (F.xfer n).root=F.endpoint
  · unfold Valid at h
    simp [hrt] at h
  · unfold Valid at h
    rw [if_neg hrt] at h
    refine ⟨hrt,fun hear => ?_⟩
    subst hear
    exact h

theorem Stage.Valid.sending (h : (Stage.sending false posted).Valid F n) : posted=true := by
  by_cases hrt : (F.xfer n).root=F.endpoint
  · rw [Valid,if_pos hrt] at h
    simpa using h
  · rw [Valid,if_neg hrt] at h
    exact h.2 rfl

theorem Stage.Valid.sending_early (h : (Stage.sending true posted).Valid F n) : (F.xfer n).root≠F.endpoint := by
  intro hrt
  rw [Valid,if_pos hrt] at h
  simp at h

theorem Stage.Valid.unexpected (h : x.Valid F n) (hx : x.unexpected=true) :
    (F.xfer n).root≠F.endpoint := by
  intro hrt
  unfold Valid at h
  rw [if_pos hrt] at h
  obtain rfl | rfl | rfl := h <;> cases hx

theorem Stage.Valid.post (h : x.Valid F n) (hx : x.unexpected=true) :
    (x.post false).Valid F n ∧ (x.post false).posted=true ∧ (x.post false).arrived=true ∧
      (x.post false).unexpected=false := by
  have hrt := h.unexpected hx
  unfold Valid at h ⊢
  rw [if_neg hrt] at h ⊢
  cases x with
  | receiving early posted | sending early posted =>
    cases early <;> cases posted <;> simp_all [Stage.unexpected,Stage.post]
  | _ => simp_all [Stage.unexpected,Stage.post]

theorem Stage.arrived_of_unexpected (hx : x.unexpected=true) : x.arrived=true := by
  cases x with
  | idle | waiting => cases hx
  | _ => rfl

theorem Stage.Valid.of_unposted (h : x.Valid F n) (hrt : (F.xfer n).root≠F.endpoint)
    (hx : x.posted=false) :
    x = .idle ∨ x = .receiving true false ∨ x = .sending true false ∨ x = .completed := by
  unfold Valid at h
  rw [if_neg hrt] at h
  cases x with
  | receiving early posted | sending early posted => cases early <;> cases posted <;> simp_all
  | _ => simp_all

end Valid

/-- The posts of an endpoint are right: buffers and messages have the size of the type; the root has the
data and a destination; and what has elements has bytes. -/
structure AsyncBroadcasts.Proper {β : Type*} (F : AsyncBroadcasts β) : Prop where
  payload : ∀ n, (F.payload n).length = (F.xfer n).bytes
  buf : ∀ n, (F.xfer n).buf.length = (F.xfer n).bytes
  root : ∀ n, (F.xfer n).root = F.endpoint → (F.xfer n).buf = F.payload n
  ndst : 0 < F.ndst F.endpoint
  dataSize : ∀ n, (F.xfer n).typecount ≠ 0 → (F.xfer n).dataSize ≠ 0

section Keys

variable {β : Type*} (F : AsyncBroadcasts β) (n : ℕ) {comm : ℕ}

theorem AsyncBroadcasts.seq_succ : F.seq (n+1) = F.mgr.nextSeq (F.seq n) := iterate_succ_apply' ..

theorem AsyncBroadcasts.getKey_post :
    F.mgr.getKey (F.xfer n).root none (F.seq n) = (F.key n, F.seq (n+1)) := by
  rw [key,seq_succ]
  cases F.mgr <;> rfl

theorem AsyncBroadcasts.getKey_message (seq : ℕ) :
    F.mgr.getKey (F.message n).root (some (F.message n).connId) seq = (F.key n, seq) := by
  rw [key,message,sentBy,seq_succ]
  cases F.mgr <;> rfl

theorem AsyncState.earlyOp_message (seq : ℕ) :
    AsyncState.earlyOp F n (F.message n) (F.key n) seq = Stage.early F n false := by
  have hkey : F.key n=(F.mgr.getKey (F.xfer n).root none (F.seq n)).1 := rfl
  rw [earlyOp,Stage.early,hkey,F.seq_succ]
  cases F.mgr <;> rfl

theorem AsyncBroadcasts.seq_eq (h : F.mgr = .commSeq comm) : F.seq n = n%2^11 := by
  induction n with
  | zero => rfl
  | succ n ih =>
    have hmask : (n%2^11+1) &&& ConnMgr.commmask=(n%2^11+1)%2^11 := and_two_pow_sub_one_eq_mod _ 11
    rw [F.seq_succ,h,ConnMgr.nextSeq,ih,hmask]
    omega

theorem AsyncBroadcasts.key_eq_iff (h : F.mgr = .commSeq comm) (m : ℕ) :
    F.key m = F.key n ↔ m%2^11=n%2^11 := by
  have hkey : ∀ n, F.key n = (comm &&& ConnMgr.commmask) <<< 11+(n+1)%2^11 := by
    intro n
    have hseq : F.mgr.nextSeq (F.seq n)=(n+1)%2^11 := by rw [← F.seq_succ,F.seq_eq _ h]
    have hmask : (n+1)%2^11 &&& ConnMgr.seqmask=(n+1)%2^11%2^11 := and_two_pow_sub_one_eq_mod _ 11
    rw [h] at hseq
    rw [key,h,ConnMgr.getKey,hseq,ConnMgr.getConnectionId,hmask,mod_mod,ConnMgr.seqbits,
      shiftLeft_add_eq_or_of_lt (mod_lt _ (by decide))]
  rw [hkey,hkey]
  omega

end Keys

theorem AsyncBroadcasts.Proper.typecount {β : Type*} {F : AsyncBroadcasts β} (hF : F.Proper) {n : ℕ}
    (h : (F.payload n).length=0) : (F.xfer n).typecount=0 := by
  rw [hF.payload,BroadcastXfer.bytes,mul_eq_zero] at h
  by_contra hne
  exact hF.dataSize n hne (h.resolve_left hne)

def Ledger.Balanced (l : Ledger) (alive : Bool) : Prop := l.allocated ≤ 1 ∧ l.allocated = l.freed + alive.toNat

namespace AsyncState

variable {β : Type*} (F : AsyncBroadcasts β)

/-- Everything about one broadcast is as its stage says. -/
structure Represents (s : AsyncState β) (n : ℕ) (x : Stage) : Prop where
  opPost : s.op (.post n) = x.opPost F n
  opArrival : s.op (.arrival n) = x.opArrival F n
  ead : s.ead n = x.ead F n
  eads : s.eads n = x.eads
  eab : s.eab n = x.eab F n
  eabs : s.eabs n = x.eabs F n
  user : s.user n = x.user F n
  written : s.written n = x.written F n
  dones : s.dones n = x.dones
  posted : n < s.posted ↔ x.posted = true
  arrived : s.arrived n = true ↔ (x.arrived = true ∧ (F.xfer n).root ≠ F.endpoint)

/-- Nothing about a broadcast is different. -/
structure SameAt (s s' : AsyncState β) (n : ℕ) : Prop where
  opPost : s'.op (.post n) = s.op (.post n)
  opArrival : s'.op (.arrival n) = s.op (.arrival n)
  ead : s'.ead n = s.ead n
  eads : s'.eads n = s.eads n
  eab : s'.eab n = s.eab n
  eabs : s'.eabs n = s.eabs n
  user : s'.user n = s.user n
  written : s'.written n = s.written n
  dones : s'.dones n = s.dones n
  posted : n < s'.posted ↔ n < s.posted
  arrived : s'.arrived n = s.arrived n

/-- The endpoint has done what the stages of its broadcasts say. -/
structure Tracks (s : AsyncState β) (stage : ℕ → Stage) : Prop where
  represents : ∀ n, Represents F s n (stage n)
  valid : ∀ n, (stage n).Valid F n
  seq : s.seq = F.seq s.posted
  postQ : Queued F.key .post s.postQ fun n => stage n = .waiting
  unexpQ : Queued F.key .arrival s.unexpQ fun n => (stage n).unexpected = true
  ordered : ∀ m n, m < n → F.key m = F.key n → (F.xfer m).root ≠ F.endpoint → s.arrived n = true → s.arrived m = true
  matched : Matches s.matched fun n => (stage n).posted = true ∧ s.arrived n = true
  multicasts : ∀ m ∈ s.multicasts, ∃ n, m = F.sentBy F.endpoint n
  failed : s.failed = false

variable {F} {s s' s'' : AsyncState β} {n m : ℕ} {x : Stage} {stage : ℕ → Stage} {p : Stage → Prop}
  {o : Origin} {ead : EADescriptor}

theorem SameAt.represents (h : SameAt s s' n) (hx : Represents F s n x) : Represents F s' n x where
  opPost := h.opPost.trans hx.opPost
  opArrival := h.opArrival.trans hx.opArrival
  ead := h.ead.trans hx.ead
  eads := h.eads.trans hx.eads
  eab := h.eab.trans hx.eab
  eabs := h.eabs.trans hx.eabs
  user := h.user.trans hx.user
  written := h.written.trans hx.written
  dones := h.dones.trans hx.dones
  posted := h.posted.trans hx.posted
  arrived := by rw [h.arrived]; exact hx.arrived

/-- Nothing but what is known of single broadcasts is different, and more may have been sent. -/
structure Kept (F : AsyncBroadcasts β) (s s' : AsyncState β) : Prop where
  seq : s'.seq = s.seq
  posted : s'.posted = s.posted
  arrived : s'.arrived = s.arrived
  postQ : s'.postQ = s.postQ
  unexpQ : s'.unexpQ = s.unexpQ
  matched : s'.matched = s.matched
  multicasts : ∀ m ∈ s'.multicasts, m ∈ s.multicasts ∨ ∃ n, m = F.sentBy F.endpoint n
  failed : s'.failed = s.failed

structure Frame (F : AsyncBroadcasts β) (s s' : AsyncState β) (n : ℕ) : Prop where
  others : ∀ m ≠ n, SameAt s s' m
  kept : Kept F s s'

structure Moves (F : AsyncBroadcasts β) (s s' : AsyncState β) (n : ℕ) (x : Stage) : Prop extends
    Frame F s s' n where
  represents : Represents F s' n x

theorem SameAt.trans (h : SameAt s s' n) (h' : SameAt s' s'' n) : SameAt s s'' n where
  opPost := h'.opPost.trans h.opPost
  opArrival := h'.opArrival.trans h.opArrival
  ead := h'.ead.trans h.ead
  eads := h'.eads.trans h.eads
  eab := h'.eab.trans h.eab
  eabs := h'.eabs.trans h.eabs
  user := h'.user.trans h.user
  written := h'.written.trans h.written
  dones := h'.dones.trans h.dones
  posted := h'.posted.trans h.posted
  arrived := h'.arrived.trans h.arrived

theorem Kept.trans (h : Kept F s s') (h' : Kept F s' s'') : Kept F s s'' where
  seq := h'.seq.trans h.seq
  posted := h'.posted.trans h.posted
  arrived := h'.arrived.trans h.arrived
  postQ := h'.postQ.trans h.postQ
  unexpQ := h'.unexpQ.trans h.unexpQ
  matched := h'.matched.trans h.matched
  multicasts m hm := (h'.multicasts m hm).elim (h.multicasts m) .inr
  failed := h'.failed.trans h.failed

theorem Frame.trans (h : Frame F s s' n) (h' : Frame F s' s'' n) : Frame F s s'' n :=
  ⟨fun m hm => (h.others m hm).trans (h'.others m hm),h.kept.trans h'.kept⟩

theorem Frame.moves (h : Frame F s s' n) (h' : Moves F s' s'' n x) : Moves F s s'' n x :=
  ⟨h.trans h'.toFrame,h'.represents⟩

theorem frame_setOp (ho : o.num=n) (c : Option (CollOp β)) : Frame F s (s.setOp o c) n := by
  refine ⟨fun m hm => ?_,rfl,rfl,rfl,rfl,rfl,rfl,fun _ => .inl,rfl⟩
  have hps : o ≠ .post m := by
    rintro rfl
    exact hm ho
  have harr : o ≠ .arrival m := by
    rintro rfl
    exact hm ho
  constructor <;> simp [setOp,hps.symm,harr.symm]

theorem frame_cbDone : Frame F s (s.cbDone n) n := by
  refine ⟨fun m hm => ?_,rfl,rfl,rfl,rfl,rfl,rfl,fun _ => .inl,rfl⟩
  constructor <;> simp [cbDone,hm]

theorem iff_update (hp : p x ↔ p (stage n)) (m : ℕ) : p (update stage n x m) ↔ p (stage m) := by
  by_cases hm : m=n
  · rw [hm,update_self]
    exact hp
  · rw [update_of_ne hm]

theorem or_update (hp : p x) (m : ℕ) : p (update stage n x m) ↔ p (stage m) ∨ m=n := by
  by_cases hm : m=n
  · simp [hm,hp]
  · simp [hm]

theorem and_update (hp : ¬ p x) (m : ℕ) : p (update stage n x m) ↔ p (stage m) ∧ m≠n := by
  by_cases hm : m=n
  · simp [hm,hp]
  · simp [hm]

theorem Tracks.matched_update (h : Tracks F s stage) (hnew : ¬ s.arrived n = true) :
    Matches s.matched fun m => (update stage n x m).posted=true ∧ s.arrived m = true := by
  refine h.matched.congr fun m => ?_
  by_cases hm : m=n
  · simp [hm,hnew]
  · rw [update_of_ne hm]

theorem Tracks.represents_update (h : Tracks F s stage) (hx : Represents F s' n x)
    (hots : ∀ m≠n, SameAt s s' m) (m : ℕ) : Represents F s' m (update stage n x m) := by
  by_cases hm : m=n
  · rw [hm,update_self]
    exact hx
  · rw [update_of_ne hm]
    exact (hots m hm).represents (h.represents m)

theorem Tracks.valid_update (h : Tracks F s stage) (hval : x.Valid F n) (m : ℕ) :
    (update stage n x m).Valid F m := by
  by_cases hm : m=n
  · rw [hm,update_self]
    exact hval
  · rw [update_of_ne hm]
    exact h.valid m

theorem Tracks.update (h : Tracks F s stage) (hmov : Moves F s s' n x) (hval : x.Valid F n) {y : Stage}
    (hsta : stage n = y) (hpst : x.posted=y.posted) (hwtn : x ≠ .waiting) (hwai : y ≠ .waiting)
    (hune : x.unexpected=y.unexpected) : Tracks F s' (update stage n x) := by
  subst hsta
  have hkp := hmov.kept
  refine ⟨h.represents_update hmov.represents hmov.others,h.valid_update hval,?_,?_,?_,?_,?_,
    fun m hm => ?_,hkp.failed.trans h.failed⟩
  · rw [hkp.seq,hkp.posted]
    exact h.seq
  · rw [hkp.postQ]
    exact h.postQ.congr (iff_update (p := fun y => y = .waiting) (iff_of_false hwtn hwai))
  · rw [hkp.unexpQ]
    exact h.unexpQ.congr (iff_update (p := fun y => y.unexpected=true) (by rw [hune]))
  · rw [hkp.arrived]
    exact h.ordered
  · rw [hkp.matched,hkp.arrived]
    exact h.matched.congr fun m => and_congr_left fun _ => iff_update (p := fun y => y.posted=true) (by rw [hpst]) m
  · exact (hkp.multicasts m hm).elim (h.multicasts m) id

section Completions

theorem execDone_posted {seq : ℕ} (hop : s.op (.post n) = some (postedOp F n seq)) :
    s.execDone F (.post n) = (s.cbDone n).setOp (.post n) none := by
  simp [execDone,hop,postedOp]

theorem execDone_unposted (hop : s.op (.arrival n) = some (Stage.early F n false)) (head : s.ead n = some ead) :
    s.execDone F (.arrival n) =
      { s with ead := update s.ead n (some { ead with flag := .completed }) } := by
  simp [execDone,hop,Stage.early,head]

/-- The data of an early arrival goes to the buffer of its post. -/
def deliver (F : AsyncBroadcasts β) (s : AsyncState β) (n : ℕ) (ead : EADescriptor) : AsyncState β :=
  (((s.copyEarly F n ead).returnEad n).cbDone n).setOp (.arrival n) none

theorem execDone_early (hop : s.op (.arrival n) = some (Stage.early F n true)) (head : s.ead n = some ead) :
    s.execDone F (.arrival n) = s.deliver F n ead := by
  simp [execDone,hop,Stage.early,head,deliver]

/-- All data of an early arrival is there. -/
structure Deliverable (F : AsyncBroadcasts β) (s : AsyncState β) (n : ℕ) : Prop where
  opPost : s.op (.post n) = none
  ead : (s.ead n).isNone = false
  eads : s.eads n = ⟨1, 0⟩
  eab : s.eab n = Stage.completed.eab F n
  eabs : s.eabs n = Stage.completed.eabs F n
  user : s.user n = (F.xfer n).buf
  written : s.written n = 0
  dones : s.dones n = 0
  arrived : s.arrived n = true
  root : (F.xfer n).root ≠ F.endpoint

variable (hF : F.Proper) {flag : EAFlag}
include hF

theorem deliver_empty (h : Deliverable F s n) (hlng : (F.payload n).length=0) :
    s.deliver F n (Stage.descriptor F n flag) =
      { s with
        ead := update s.ead n none
        eads := update s.eads n ⟨1,1⟩
        dones := update s.dones n 1
        op := update s.op (.arrival n) none } := by
  have hcop : s.copyEarly F n (Stage.descriptor F n flag)=s := if_pos (hF.typecount hlng)
  rw [deliver,hcop,returnEad,if_neg (by rw [h.ead]; exact Bool.false_ne_true)]
  simp [cbDone,setOp,h.eads,h.dones]

theorem deliver_full (h : Deliverable F s n) (hlng : (F.payload n).length≠0) :
    s.deliver F n (Stage.descriptor F n flag) =
      { s with
        user := update s.user n (F.payload n)
        written := update s.written n 1
        eab := update s.eab n none
        eabs := update s.eabs n ⟨1,1⟩
        ead := update s.ead n none
        eads := update s.eads n ⟨1,1⟩
        dones := update s.dones n 1
        op := update s.op (.arrival n) none } := by
  have hcou : (F.xfer n).typecount≠0 := by
    intro hzr
    rw [hF.payload,BroadcastXfer.bytes,hzr,zero_mul] at hlng
    exact hlng rfl
  have heab := h.eab
  have heabs := h.eabs
  rw [Stage.eab,if_neg hlng] at heab
  rw [Stage.eabs,if_neg hlng] at heabs
  have hbuf : (Stage.descriptor F n flag).buf=some n := if_neg hlng
  have hcop : s.copyEarly F n (Stage.descriptor F n flag) =
      { s with
        user := update s.user n (F.payload n)
        written := update s.written n 1
        eab := update s.eab n none
        eabs := update s.eabs n ⟨1,1⟩ } := by
    rw [copyEarly,if_neg hcou,hbuf]
    simp [heab,freeBuffer,← hF.payload,heabs,Stage.eads,h.written]
  rw [deliver,hcop,returnEad,if_neg (by rw [h.ead]; exact Bool.false_ne_true)]
  simp [cbDone,setOp,h.eads,h.dones]

theorem moves_deliver (h : Deliverable F s n) (hpst : n < s.posted) :
    Moves F s (s.deliver F n (Stage.descriptor F n flag)) n (.done true) := by
  by_cases hlng : (F.payload n).length=0
  · rw [deliver_empty hF h hlng]
    refine ⟨⟨fun m hm => ?_,rfl,rfl,rfl,rfl,rfl,rfl,fun _ => .inl,rfl⟩,?_⟩
    · constructor <;> simp [hm]
    · have huser : s.user n = F.payload n := by
        rw [h.user,eq_nil_of_length_eq_zero hlng]
        exact eq_nil_of_length_eq_zero (by rw [hF.buf,← hF.payload,hlng])
      have heab := h.eab
      have heabs := h.eabs
      rw [Stage.eab,if_pos hlng] at heab
      rw [Stage.eabs,if_pos hlng] at heabs
      constructor <;>
        simp [h.opPost,heab,heabs,huser,h.written,hpst,h.arrived,h.root,hlng]
  · rw [deliver_full hF h hlng]
    refine ⟨⟨fun m hm => ?_,rfl,rfl,rfl,rfl,rfl,rfl,fun _ => .inl,rfl⟩,?_⟩
    · constructor <;> simp [hm]
    · constructor <;> simp [h.opPost,hpst,h.arrived,h.root,hlng]

omit hF in
theorem frame_sendNext {c : CollOp β} (ho : o.num=n) (hop : s.op o = some c)
    (hmes : ⟨c.connId,c.root,s.contents c.buffer⟩ = F.sentBy F.endpoint n) :
    Frame F s (s.sendNext F o) n := by
  simp only [sendNext,hop,hmes]
  split
  · exact ⟨fun m _ => ⟨rfl,rfl,rfl,rfl,rfl,rfl,rfl,rfl,rfl,.rfl,rfl⟩,
      rfl,rfl,rfl,rfl,rfl,rfl,fun _ => .inl,rfl⟩
  · have hsn : Frame F s { s with multicasts := s.multicasts ++ [F.sentBy F.endpoint n] } n := by
      refine ⟨fun m _ => ⟨rfl,rfl,rfl,rfl,rfl,rfl,rfl,rfl,rfl,.rfl,rfl⟩,
        rfl,rfl,rfl,rfl,rfl,rfl,fun m hm => ?_,rfl⟩
      obtain hm | hm := mem_append.mp hm
      · exact .inl hm
      · exact .inr ⟨n,mem_singleton.mp hm⟩
    exact hsn.trans (frame_setOp ho (some { c with sending := true }))

section

variable (hrt : (F.xfer n).root ≠ F.endpoint) {posted : Bool}
include hrt

theorem write_post (hx : Represents F s n (.receiving false true)) : s.write (F.payload n) (.post n) =
      { s with
        user := update s.user n (F.payload n)
        written := update s.written n ((Stage.done false).written F n) } := by
  have huser := hx.user
  have hwri := hx.written
  by_cases hpay : F.payload n = []
  · have hlng : (F.payload n).length=0 := by rw [hpay,length_nil]
    have hbuf : (F.xfer n).buf = [] := eq_nil_of_length_eq_zero (by rw [hF.buf,← hF.payload,hlng])
    have hsm : s.user n = F.payload n := by rw [huser,hpay]; exact hbuf
    have hnn : s.written n = (Stage.done false).written F n := by
      rw [hwri]
      simp [hlng]
    rw [write,if_pos hpay,← hsm,← hnn,update_eq_self,update_eq_self]
  · have hlng : (F.payload n).length≠0 := by simpa using hpay
    rw [write,if_neg hpay]
    simp [hwri,hlng,hrt]

omit hF hrt in
theorem write_arrival (hx : Represents F s n (.receiving true posted)) : s.write (F.payload n) (.arrival n) =
      { s with eab := update s.eab n (Stage.completed.eab F n) } := by
  have heab := hx.eab
  by_cases hpay : F.payload n = []
  · have hlng : (F.payload n).length=0 := by rw [hpay,length_nil]
    have hnn : s.eab n = Stage.completed.eab F n := by
      rw [heab]
      simp [hlng]
    rw [write,if_pos hpay,← hnn,update_eq_self]
  · have hlng : (F.payload n).length≠0 := by simpa using hpay
    rw [write,if_neg hpay]
    simp [heab,hlng]

theorem moves_received_post (hx : Represents F s n (.receiving false true)) :
    Moves F s (s.received F (.post n) { postedOp F n (F.seq (n+1)) with receiving := some (F.payload n) }
      (F.payload n)) n (Stage.receive (F.relays n) (.receiving false true)) := by
  have hwri : Frame F s (s.write (F.payload n) (.post n)) n := by
    rw [write_post hF hrt hx]
    refine ⟨fun m hm => ?_,rfl,rfl,rfl,rfl,rfl,rfl,fun _ => .inl,rfl⟩
    constructor <;> simp [hm]
  have hfra : Frame F s ((s.write (F.payload n) (.post n)).setOp (.post n) (some (postedOp F n (F.seq (n+1))))) n :=
    hwri.trans (frame_setOp rfl _)
  have hop : ((s.write (F.payload n) (.post n)).setOp (.post n) (some (postedOp F n (F.seq (n+1))))).op (.post n) =
    some (postedOp F n (F.seq (n+1))) := update_self ..
  have hrec : s.received F (.post n)
      { postedOp F n (F.seq (n+1)) with receiving := some (F.payload n) } (F.payload n) =
    if F.ndst (F.xfer n).root=0 then
      ((s.write (F.payload n) (.post n)).setOp (.post n) (some (postedOp F n (F.seq (n+1))))).execDone F (.post n)
    else
      ((s.write (F.payload n) (.post n)).setOp (.post n) (some (postedOp F n (F.seq (n+1))))).sendNext F (.post n) :=
    rfl
  rw [hrec]
  by_cases hndst : F.ndst (F.xfer n).root=0
  · rw [if_pos hndst,execDone_posted hop]
    refine ⟨(hfra.trans frame_cbDone).trans (frame_setOp rfl _),?_⟩
    rw [write_post hF hrt hx]
    constructor <;> simp [setOp,cbDone,Stage.receive,Stage.finish,F.relays_false hndst,hx.opArrival,hx.ead,hx.eads,hx.eab,
      hx.eabs,hx.dones,hx.posted,hx.arrived,hrt]
  · rw [if_neg hndst]
    refine ⟨hfra.trans (frame_sendNext rfl hop ?_),?_⟩
    · have hcon : (s.write (F.payload n) (.post n)).user n = F.payload n := by
        rw [write_post hF hrt hx]
        exact update_self ..
      exact congrArg (AsyncMessage.mk _ _) hcon
    · simp only [sendNext,hop]
      have hrt' : (postedOp F n (F.seq (n+1))).root=(F.xfer n).root := rfl
      rw [if_neg (hrt' ▸ hndst),write_post hF hrt hx]
      constructor <;> simp [setOp,Stage.receive,F.relays_true hndst,hx.opArrival,hx.ead,hx.eads,hx.eab,
        hx.eabs,hx.dones,hx.posted,hx.arrived,hrt]

omit hrt in
theorem moves_execDone_arrival (h : Deliverable F s n)
    (hop : s.op (.arrival n) = some (Stage.early F n posted))
    (head : s.ead n = some (Stage.descriptor F n .started)) (hpst : n < s.posted ↔ posted=true) :
    Moves F s (s.execDone F (.arrival n)) n (Stage.finish true posted) := by
  cases posted with
  | true =>
    rw [execDone_early hop head]
    exact moves_deliver hF h (hpst.mpr rfl)
  | false =>
    rw [execDone_unposted hop head]
    refine ⟨⟨fun m hm => ?_,rfl,rfl,rfl,rfl,rfl,rfl,fun _ => .inl,rfl⟩,?_⟩
    · constructor <;> simp [hm]
    · constructor <;> simp [Stage.finish,Stage.descriptor,h.opPost,hop,h.eads,h.eab,h.eabs,h.user,h.written,
        h.dones,hpst,h.arrived,h.root]

theorem moves_received_arrival (hx : Represents F s n (.receiving true posted)) :
    Moves F s (s.received F (.arrival n) { Stage.early F n posted with receiving := some (F.payload n) }
      (F.payload n)) n (Stage.receive (F.relays n) (.receiving true posted)) := by
  have hwri : Frame F s (s.write (F.payload n) (.arrival n)) n := by
    rw [write_arrival hx]
    refine ⟨fun m hm => ?_,rfl,rfl,rfl,rfl,rfl,rfl,fun _ => .inl,rfl⟩
    constructor <;> simp [hm]
  have hfra : Frame F s ((s.write (F.payload n) (.arrival n)).setOp (.arrival n) (some (Stage.early F n posted))) n :=
    hwri.trans (frame_setOp rfl _)
  have hop : ((s.write (F.payload n) (.arrival n)).setOp (.arrival n) (some (Stage.early F n posted))).op (.arrival n) =
    some (Stage.early F n posted) := update_self ..
  have hrec : s.received F (.arrival n)
      { Stage.early F n posted with receiving := some (F.payload n) } (F.payload n) =
    if F.ndst (F.xfer n).root=0 then
      ((s.write (F.payload n) (.arrival n)).setOp (.arrival n) (some (Stage.early F n posted))).execDone F (.arrival n)
    else
      ((s.write (F.payload n) (.arrival n)).setOp (.arrival n) (some (Stage.early F n posted))).sendNext F (.arrival n) :=
    rfl
  rw [hrec]
  rw [write_arrival hx] at hfra hop ⊢
  by_cases hndst : F.ndst (F.xfer n).root=0
  · rw [if_pos hndst]
    have hsta : Stage.receive (F.relays n) (.receiving true posted) = Stage.finish true posted := by
      rw [F.relays_false hndst]
      rfl
    rw [hsta]
    refine hfra.moves (moves_execDone_arrival hF ?_ hop hx.ead hx.posted)
    constructor <;> simp [setOp,hx.opPost,hx.ead,hx.eads,hx.eabs,hx.user,hx.written,hx.dones,hx.arrived,hrt]
  · rw [if_neg hndst]
    refine ⟨hfra.trans (frame_sendNext rfl hop ?_),?_⟩
    · apply congrArg (AsyncMessage.mk _ _)
      by_cases hpay : F.payload n = [] <;> simp [setOp,contents,Stage.early,hpay]
    · simp only [sendNext,hop]
      have hrt' : (Stage.early F n posted).root=(F.xfer n).root := rfl
      rw [if_neg (hrt' ▸ hndst)]
      constructor <;> simp [setOp,Stage.receive,F.relays_true hndst,hx.opPost,hx.ead,hx.eads,hx.eabs,hx.user,hx.written,
        hx.dones,hx.posted,hx.arrived,hrt]

omit hF hrt in
theorem moves_sent_post (hx : Represents F s n (.sending false true)) :
    Moves F s ((s.setOp (.post n) (some (postedOp F n (F.seq (n+1))))).execDone F (.post n)) n (.done false) := by
  rw [execDone_posted (update_self ..)]
  refine ⟨((frame_setOp rfl _).trans frame_cbDone).trans (frame_setOp rfl _),?_⟩
  constructor <;> simp [setOp,cbDone,hx.opArrival,hx.ead,hx.eads,hx.eab,hx.eabs,hx.user,hx.written,hx.dones,
    hx.posted,hx.arrived]

theorem moves_sent_arrival (hx : Represents F s n (.sending true posted)) :
    Moves F s ((s.setOp (.arrival n) (some (Stage.early F n posted))).execDone F (.arrival n)) n
      (Stage.finish true posted) := by
  have hfra : Frame F s (s.setOp (.arrival n) (some (Stage.early F n posted))) n := frame_setOp rfl _
  refine hfra.moves (moves_execDone_arrival hF ?_ (update_self ..) hx.ead hx.posted)
  constructor <;> simp [setOp,hx.opPost,hx.ead,hx.eads,hx.eab,hx.eabs,hx.user,hx.written,hx.dones,hx.arrived,
    hrt]

end

end Completions

section Steps

section

variable (hx : Represents F s n x) {c : CollOp β} {data : List β}
include hx

theorem Represents.receiving_post (hop : s.op (.post n) = some c) (hda : c.receiving = some data) :
    ∃ posted, x = .receiving false posted ∧
      c = { postedOp F n (F.seq (n+1)) with receiving := some (F.payload n) } ∧ data = F.payload n :=
  match x, hx.opPost.symm.trans hop, hda with
  | .receiving false posted, rfl, rfl => ⟨posted,rfl,rfl,rfl⟩

theorem Represents.receiving_arrival (hop : s.op (.arrival n) = some c) (hda : c.receiving = some data) :
    ∃ posted, x = .receiving true posted ∧
      c = { Stage.early F n posted with receiving := some (F.payload n) } ∧ data = F.payload n :=
  match x, hx.opArrival.symm.trans hop, hda with
  | .receiving true posted, rfl, rfl => ⟨posted,rfl,rfl,rfl⟩

theorem Represents.sending_post (hop : s.op (.post n) = some c) (hsen : c.sending=true) :
    ∃ posted, x = .sending false posted ∧ c = { postedOp F n (F.seq (n+1)) with sending := true } :=
  match x, hx.opPost.symm.trans hop, hsen with
  | .sending false posted, rfl, rfl => ⟨posted,rfl,rfl⟩

theorem Represents.sending_arrival (hop : s.op (.arrival n) = some c) (hsen : c.sending=true) :
    ∃ posted, x = .sending true posted ∧ c = { Stage.early F n posted with sending := true } :=
  match x, hx.opArrival.symm.trans hop, hsen with
  | .sending true posted, rfl, rfl => ⟨posted,rfl,rfl⟩

end

variable (hF : F.Proper)
include hF

section

variable (h : Tracks F s stage)
include h

theorem Tracks.received (hs : s.step F (.received o) = some s') :
    Tracks F s' (Function.update stage o.num ((stage o.num).receive (F.relays o.num))) := by
  obtain ⟨c,hop,hs⟩ := bind_eq_some_iff.mp hs
  obtain ⟨data,hda,rfl⟩ := map_eq_some_iff.mp hs
  have hx := h.represents o.num
  have hval := h.valid o.num
  cases o with
  | post n =>
    obtain ⟨posted,hsta,rfl,rfl⟩ := hx.receiving_post hop hda
    simp only [Origin.num] at hx hval hsta ⊢
    rw [hsta] at hx hval ⊢
    obtain ⟨hrt,hpst⟩ := hval.receiving
    obtain rfl := hpst rfl
    have hmov := moves_received_post hF hrt hx
    by_cases hndst : F.ndst (F.xfer n).root=0
    · rw [F.relays_false hndst] at hmov ⊢
      exact h.update hmov (by simp [Stage.receive,Stage.finish,Stage.Valid,hrt]) hsta rfl Stage.noConfusion
        Stage.noConfusion rfl
    · rw [F.relays_true hndst] at hmov ⊢
      exact h.update hmov (by simp [Stage.receive,Stage.Valid,hrt,Nat.pos_iff_ne_zero,hndst]) hsta rfl
        Stage.noConfusion Stage.noConfusion rfl
  | arrival n =>
    obtain ⟨posted,hsta,rfl,rfl⟩ := hx.receiving_arrival hop hda
    simp only [Origin.num] at hx hval hsta ⊢
    rw [hsta] at hx hval ⊢
    obtain ⟨hrt,-⟩ := hval.receiving
    have hmov := moves_received_arrival hF hrt hx
    by_cases hndst : F.ndst (F.xfer n).root=0
    · rw [F.relays_false hndst] at hmov ⊢
      cases posted <;>
        exact h.update hmov (by simp [Stage.receive,Stage.finish,Stage.Valid,hrt]) hsta rfl
          Stage.noConfusion Stage.noConfusion rfl
    · rw [F.relays_true hndst] at hmov ⊢
      cases posted <;>
        exact h.update hmov (by simp [Stage.receive,Stage.Valid,hrt,Nat.pos_iff_ne_zero,hndst]) hsta rfl
          Stage.noConfusion Stage.noConfusion rfl

theorem Tracks.sent (hs : s.step F (.sent o) = some s') :
    Tracks F s' (Function.update stage o.num (stage o.num).sent) := by
  obtain ⟨c,hop,hs⟩ := bind_eq_some_iff.mp hs
  obtain ⟨hsen,rfl⟩ := ite_some_none_eq_some.mp hs
  have hx := h.represents o.num
  have hval := h.valid o.num
  cases o with
  | post n =>
    obtain ⟨posted,hsta,rfl⟩ := hx.sending_post hop hsen
    simp only [Origin.num] at hx hval hsta ⊢
    rw [hsta] at hx hval ⊢
    obtain rfl := hval.sending
    have hnx : (Stage.done false).Valid F n := by
      by_cases hrt : (F.xfer n).root=F.endpoint <;> simp [Stage.Valid,hrt]
    exact h.update (moves_sent_post hx) hnx hsta rfl Stage.noConfusion Stage.noConfusion rfl
  | arrival n =>
    obtain ⟨posted,hsta,rfl⟩ := hx.sending_arrival hop hsen
    simp only [Origin.num] at hx hval hsta ⊢
    rw [hsta] at hx hval ⊢
    have hrt := hval.sending_early
    have hmov := moves_sent_arrival hF hrt hx
    cases posted <;>
      exact h.update hmov (by simp [Stage.sent,Stage.finish,Stage.Valid,hrt]) hsta rfl Stage.noConfusion
        Stage.noConfusion rfl

section

variable {c : CollOp β} (hop : s.op (.arrival n) = some c) (heaq : c.eaq = [n])
  (hear : c.earlyArrival = true)
include hop heaq hear

omit h in
theorem generateEarly_started (head : s.ead n = some (Stage.descriptor F n .started)) :
    s.generateEarly F n (.arrival n) = { s with matched := s.matched ++ [(n, n)] }.setOp (.arrival n)
      (some { c with xfer := some n, localPosted := true }) := by
  simp [generateEarly,hop,heaq,head,hear,Stage.descriptor,hF.payload]

omit h in
theorem generateEarly_completed (head : s.ead n = some (Stage.descriptor F n .completed)) :
    s.generateEarly F n (.arrival n) =
      { s with matched := s.matched ++ [(n, n)] }.deliver F n (Stage.descriptor F n .completed) := by
  simp [generateEarly,hop,heaq,head,hear,Stage.descriptor,hF.payload,deliver]

end

omit hF h in
theorem Represents.unposted (hx : Represents F s s.posted x) : x.posted=false := by
  by_contra hpst
  exact lt_irrefl _ (hx.posted.mpr (not_eq_false _ ▸ hpst))

omit hF in
theorem Tracks.unexpected_le (hm : (stage m).unexpected=true) : s.posted ≤ m := by
  by_contra hlt
  have hpst := (h.represents m).posted.mp (not_le.mp hlt)
  cases hsta : stage m with
  | receiving early posted | sending early posted =>
    cases early <;> cases posted <;> simp_all [Stage.unexpected]
  | _ => simp_all [Stage.unexpected]

omit hF in
theorem Tracks.idle_root (hrt : (F.xfer s.posted).root=F.endpoint) : stage s.posted = .idle := by
  have hunp := (h.represents s.posted).unposted
  have hval := h.valid s.posted
  unfold Stage.Valid at hval
  rw [if_pos hrt] at hval
  obtain hsta | hsta | hsta := hval
  · exact hsta
  · rw [hsta] at hunp
    cases hunp
  · rw [hsta] at hunp
    cases hunp

theorem Tracks.generate_root (hrt : (F.xfer s.posted).root=F.endpoint) :
    Tracks F (s.generate F) (Function.update stage s.posted (.sending false true)) := by
  have hx := h.represents s.posted
  have hsta := h.idle_root hrt
  rw [hsta] at hx
  have hndst : F.ndst (F.xfer s.posted).root≠0 := by
    rw [hrt]
    exact hF.ndst.ne'
  have hbuf : s.user s.posted = F.payload s.posted := hx.user.trans (hF.root _ hrt)
  have hgen : s.generate F =
      { s with
        posted := s.posted+1
        seq := F.seq (s.posted+1)
        op := Function.update s.op (.post s.posted)
          (some { postedOp F s.posted (F.seq (s.posted+1)) with sending := true })
        multicasts := s.multicasts ++ [F.sentBy F.endpoint s.posted] } := by
    have hndst' : F.ndst (postedOp F s.posted (F.seq (s.posted+1))).root≠0 := hndst
    simp only [generate,h.seq,F.getKey_post,if_pos hrt.symm,sendNext,setOp,update_self,if_neg hndst',
      update_idem]
    simp [contents,postedOp,hbuf,AsyncBroadcasts.sentBy]
  have hots : ∀ m≠s.posted, SameAt s (s.generate F) m := by
    intro m hm
    rw [hgen]
    constructor <;> simp [hm]
    omega
  rw [hgen] at hots ⊢
  refine ⟨h.represents_update ?_ hots,h.valid_update ?_,rfl,?_,?_,h.ordered,?_,fun m hm => ?_,h.failed⟩
  · constructor <;> simp [hx.opArrival,hx.ead,hx.eads,hx.eab,hx.eabs,hbuf,hx.written,hx.dones,hx.arrived,hrt]
  · simp [Stage.Valid,hrt]
  · exact h.postQ.congr (iff_update (p := fun y => y = .waiting) (by simp [hsta]))
  · exact h.unexpQ.congr (iff_update (p := fun y => y.unexpected=true) (by simp [Stage.unexpected,hsta]))
  · exact h.matched_update fun hard => Bool.false_ne_true (hx.arrived.mp hard).1
  · obtain hm | hm := mem_append.mp hm
    · exact h.multicasts m hm
    · exact ⟨s.posted,mem_singleton.mp hm⟩

omit hF in
theorem Tracks.arrived (hm : (stage m).unexpected=true) : s.arrived m = true :=
  (h.represents m).arrived.mpr ⟨Stage.arrived_of_unexpected hm,(h.valid m).unexpected hm⟩

omit hF in
theorem Tracks.generate_idle (hrt : (F.xfer s.posted).root≠F.endpoint) (hsta : stage s.posted = .idle) :
    Tracks F (s.generate F) (Function.update stage s.posted .waiting) := by
  have hx := h.represents s.posted
  rw [hsta] at hx
  have hfind : findAndDelete s.unexpQ (F.key s.posted)=none := by
    apply h.unexpQ.find_none
    intro m hm hkey
    have hne : m≠s.posted := by
      rintro rfl
      rw [hsta] at hm
      cases hm
    have hle := h.unexpected_le hm
    have hard := h.ordered s.posted m (by omega) hkey.symm hrt (h.arrived hm)
    exact Bool.false_ne_true (hx.arrived.mp hard).1
  have hgen : s.generate F =
      { s with
        posted := s.posted+1
        seq := F.seq (s.posted+1)
        op := Function.update s.op (.post s.posted) (some (postedOp F s.posted (F.seq (s.posted+1))))
        postQ := s.postQ ++ [⟨F.key s.posted,.post s.posted⟩] } := by
    simp only [generate,h.seq,F.getKey_post,if_neg hrt.symm,hfind]
    rfl
  have hots : ∀ m≠s.posted, SameAt s (s.generate F) m := by
    intro m hm
    rw [hgen]
    constructor <;> simp [hm]
    omega
  rw [hgen] at hots ⊢
  refine ⟨h.represents_update ?_ hots,h.valid_update ?_,rfl,?_,?_,h.ordered,?_,h.multicasts,h.failed⟩
  · constructor <;> simp [hx.opArrival,hx.ead,hx.eads,hx.eab,hx.eabs,hx.user,hx.written,hx.dones,hx.arrived]
  · simp [Stage.Valid,hrt]
  · refine h.postQ.push (by simp [hsta]) (fun m hm _ => ?_) (or_update (p := fun y => y = .waiting) rfl)
    have hpst := (h.represents m).posted
    rw [hm] at hpst
    exact hpst.mpr rfl
  · exact h.unexpQ.congr (iff_update (p := fun y => y.unexpected=true) (by simp [Stage.unexpected,hsta]))
  · exact h.matched_update fun hard => Bool.false_ne_true (hx.arrived.mp hard).1

end

/-- The state of a post that has found its message. -/
def foundEarly (F : AsyncBroadcasts β) (s : AsyncState β) (unexpQ : List AsyncElem) : AsyncState β where
  __ := s
  posted := s.posted + 1
  seq := F.seq (s.posted + 1)
  unexpQ := unexpQ
  matched := s.matched ++ [(s.posted, s.posted)]

omit hF in
theorem Tracks.find_unexpected (h : Tracks F s stage) (hsta : (stage s.posted).unexpected=true) :
    ∃ unexpQ, findAndDelete s.unexpQ (F.key s.posted) = some (.arrival s.posted, unexpQ) ∧
      ∀ s', Moves F (foundEarly F s unexpQ) s' s.posted ((stage s.posted).post false) →
        Tracks F s' (Function.update stage s.posted ((stage s.posted).post false)) := by
  obtain ⟨hval,hpst,hard,hune⟩ := (h.valid s.posted).post hsta
  obtain ⟨unexpQ,hfind,hrs⟩ := h.unexpQ.find hsta (fun m hm _ => h.unexpected_le hm) fun m => Iff.rfl
  refine ⟨unexpQ,hfind,fun s' hmov => ?_⟩
  have hsm : ∀ m≠s.posted, SameAt s (foundEarly F s unexpQ) m := by
    intro m hm
    constructor <;> simp [foundEarly]
    omega
  have hkp := hmov.kept
  refine ⟨h.represents_update hmov.represents fun m hm => (hsm m hm).trans (hmov.others m hm),
    h.valid_update hval,?_,?_,?_,?_,?_,fun m hm => ?_,hkp.failed.trans h.failed⟩
  · rw [hkp.seq,hkp.posted]
    rfl
  · rw [hkp.postQ]
    refine h.postQ.congr (iff_update (p := fun y => y = .waiting) (iff_of_false (fun hwai => ?_) fun hwai => ?_))
    · rw [hwai] at hard
      cases hard
    · rw [hwai] at hsta
      cases hsta
  · rw [hkp.unexpQ]
    exact hrs.congr (and_update (p := fun y => y.unexpected=true) (not_eq_true _ ▸ hune))
  · rw [hkp.arrived]
    exact h.ordered
  · rw [hkp.matched,hkp.arrived]
    refine h.matched.push (fun hmat => ?_) fun m => ?_
    · exact Bool.false_ne_true ((h.represents s.posted).unposted.symm.trans hmat.1)
    · by_cases hm : m=s.posted
      · subst hm
        have hard : s.arrived s.posted=true := h.arrived hsta
        refine iff_of_true ⟨?_,hard⟩ (.inr rfl)
        rw [update_self]
        exact hpst
      · rw [update_of_ne hm]
        exact (or_iff_left hm).symm
  · exact (hkp.multicasts m hm).elim (h.multicasts m) id

theorem Tracks.generate_early (h : Tracks F s stage) (hsta : (stage s.posted).unexpected=true) :
    Tracks F (s.generate F) (Function.update stage s.posted ((stage s.posted).post false)) := by
  have hx := h.represents s.posted
  have hval := h.valid s.posted
  have hrt := hval.unexpected hsta
  have hgen : ∀ {unexpQ}, findAndDelete s.unexpQ (F.key s.posted) = some (.arrival s.posted, unexpQ) →
      s.generate F = { s with posted := s.posted+1, seq := F.seq (s.posted+1), unexpQ := unexpQ }.generateEarly F
        s.posted (.arrival s.posted) := by
    intro unexpQ hfind
    simp only [generate,h.seq,F.getKey_post,if_neg hrt.symm,hfind]
  obtain ⟨unexpQ,hfind,htra⟩ := h.find_unexpected hsta
  apply htra
  rw [hgen hfind]
  obtain hid | hear | hear | hear := hval.of_unposted hrt hx.unposted
  · rw [hid] at hsta
    cases hsta
  · rw [hear] at hx ⊢
    rw [generateEarly_started hF (by exact hx.opArrival) rfl rfl (by exact hx.ead)]
    refine ⟨frame_setOp rfl _,?_⟩
    constructor <;> simp [Stage.post,setOp,hx.opPost,hx.ead,hx.eads,hx.eab,hx.eabs,hx.user,hx.written,
      hx.dones,hx.arrived,Stage.early]
  · rw [hear] at hx ⊢
    rw [generateEarly_started hF (by exact hx.opArrival) rfl rfl (by exact hx.ead)]
    refine ⟨frame_setOp rfl _,?_⟩
    constructor <;> simp [Stage.post,setOp,hx.opPost,hx.ead,hx.eads,hx.eab,hx.eabs,hx.user,hx.written,
      hx.dones,hx.arrived,Stage.early]
  · rw [hear] at hx ⊢
    rw [generateEarly_completed hF (by exact hx.opArrival) rfl rfl (by exact hx.ead)]
    apply moves_deliver hF _ (lt_succ_self _)
    constructor <;> simp [foundEarly,hx.opPost,hx.ead,hx.eads,hx.eab,hx.eabs,hx.user,hx.written,hx.dones,
      hx.arrived,hrt]

theorem Tracks.generate (h : Tracks F s stage) :
    Tracks F (s.generate F) (Function.update stage s.posted
      ((stage s.posted).post ((F.xfer s.posted).root=F.endpoint))) := by
  have hx := h.represents s.posted
  by_cases hrt : (F.xfer s.posted).root=F.endpoint
  · rw [decide_eq_true hrt]
    have hid : stage s.posted = .idle := h.idle_root hrt
    rw [hid]
    exact h.generate_root hF hrt
  · rw [decide_eq_false hrt]
    obtain hid | hear | hear | hear := (h.valid s.posted).of_unposted hrt hx.unposted
    · rw [hid]
      exact h.generate_idle hrt hid
    · exact h.generate_early hF (by rw [hear]; rfl)
    · exact h.generate_early hF (by rw [hear]; rfl)
    · exact h.generate_early hF (by rw [hear]; rfl)

section Arrivals

omit hF
variable (hrt : (F.xfer n).root ≠ F.endpoint) (hnew : s.arrived n = false)
  (hino : ∀ m < n, F.key m = F.key n → (F.xfer m).root ≠ F.endpoint → s.arrived m = true)
include hrt hnew hino

theorem Tracks.waiting_le (h : Tracks F s stage) (hm : stage m = .waiting) (hkey : F.key m = F.key n) :
    n ≤ m := by
  by_contra hlt
  have hx := h.represents m
  have hval := h.valid m
  rw [hm] at hx hval
  have hne : (F.xfer m).root≠F.endpoint := by
    intro heq
    unfold Stage.Valid at hval
    rw [if_pos heq] at hval
    simp at hval
  exact Bool.false_ne_true (hx.arrived.mp (hino m (not_le.mp hlt) hkey hne)).1

omit hrt in
theorem Tracks.ordered_update (h : Tracks F s stage) (m k : ℕ) (hlt : m<k) (hkey : F.key m = F.key k)
    (hm : (F.xfer m).root≠F.endpoint) (hk : Function.update s.arrived n true k = true) :
    Function.update s.arrived n true m = true := by
  have hold : s.arrived m=true := by
    by_cases heq : k=n
    · subst heq
      exact hino m hlt hkey hm
    · rw [update_of_ne heq] at hk
      exact h.ordered m k hlt hkey hm hk
  by_cases heq : m=n
  · rw [heq,update_self]
  · rw [update_of_ne heq]
    exact hold

theorem Tracks.cbAsync_waiting (hF : F.Proper) (h : Tracks F s stage) (hsta : stage n = .waiting) :
    Tracks F (s.cbAsync F n) (Function.update stage n (.receiving false true)) := by
  have hx := h.represents n
  rw [hsta] at hx
  obtain ⟨postQ,hfind,hrs⟩ := h.postQ.find hsta
    (fun m hm hkey => h.waiting_le hrt hnew hino hm hkey) fun m => Iff.rfl
  have hcba : s.cbAsync F n =
      { s with
        arrived := Function.update s.arrived n true
        postQ := postQ
        matched := s.matched ++ [(n, n)]
        op := Function.update s.op (.post n)
          (some { postedOp F n (F.seq (n+1)) with receiving := some (F.payload n) }) } := by
    have hop : s.op (.post n) = some (postedOp F n (F.seq (n+1))) := hx.opPost
    have hda : (F.message n).data=F.payload n := rfl
    simp only [cbAsync,F.getKey_message,hfind,hop,bind_some,postedOp,hda,hF.payload,if_true,notifyRecv]
    rfl
  have hots : ∀ m≠n, SameAt s (s.cbAsync F n) m := by
    intro m hm
    rw [hcba]
    constructor <;> simp [hm]
  rw [hcba] at hots ⊢
  refine ⟨h.represents_update ?_ hots,h.valid_update ?_,h.seq,?_,?_,?_,?_,h.multicasts,h.failed⟩
  · constructor <;> simp [hx.opArrival,hx.ead,hx.eads,hx.eab,hx.eabs,hx.user,hx.written,hx.dones,hx.posted,hrt]
  · simp [Stage.Valid,hrt]
  · exact hrs.congr (and_update (p := fun y => y = .waiting) Stage.noConfusion)
  · exact h.unexpQ.congr (iff_update (p := fun y => y.unexpected=true) (by simp [Stage.unexpected,hsta]))
  · exact h.ordered_update hnew hino
  · refine h.matched.push (fun hmat => Bool.false_ne_true (hnew.symm.trans hmat.2)) fun m => ?_
    by_cases hm : m=n
    · subst hm
      simp
    · simp only [update_of_ne hm]
      exact (or_iff_left hm).symm

theorem Tracks.cbAsync_idle (h : Tracks F s stage) (hsta : stage n = .idle) :
    Tracks F (s.cbAsync F n) (Function.update stage n (.receiving true false)) := by
  have hx := h.represents n
  rw [hsta] at hx
  have hpst : ¬ n < s.posted := fun hlt => Bool.false_ne_true (hx.posted.mp hlt)
  have hfind : findAndDelete s.postQ (F.key n)=none := by
    apply h.postQ.find_none
    intro m hm hkey
    have hle := h.waiting_le hrt hnew hino hm hkey
    have hbef := (h.represents m).posted
    rw [hm] at hbef
    exact hpst (hle.trans_lt (hbef.mpr rfl))
  have hla : ∀ m, (stage m).unexpected=true → F.key m = F.key n → m<n := by
    intro m hm hkey
    have hard := h.arrived hm
    by_contra hle
    obtain heq | hlt := eq_or_lt_of_le (not_lt.mp hle)
    · exact Bool.false_ne_true (hnew.symm.trans (heq ▸ hard))
    · exact Bool.false_ne_true (hnew.symm.trans (h.ordered n m hlt hkey.symm hrt hard))
  have hcba : s.cbAsync F n =
      { s with
        arrived := Function.update s.arrived n true
        ead := Function.update s.ead n (some (Stage.descriptor F n .started))
        eads := Function.update s.eads n ⟨1,0⟩
        eab := Function.update s.eab n ((Stage.receiving true false).eab F n)
        eabs := Function.update s.eabs n ((Stage.receiving true false).eabs F n)
        unexpQ := s.unexpQ ++ [⟨F.key n,.arrival n⟩]
        op := Function.update s.op (.arrival n)
          (some { Stage.early F n false with receiving := some (F.payload n) }) } := by
    have hda : (F.message n).data=F.payload n := rfl
    have hmes : (F.message n).root=(F.xfer n).root := rfl
    have hop := AsyncState.earlyOp_message F n s.seq
    have heads : s.eads n = ⟨0,0⟩ := hx.eads
    have heab := hx.eab
    have heabs := hx.eabs
    simp only [cbAsync,F.getKey_message,hfind]
    simp only [hop,hda,hmes,notifyRecv,setOp,update_self,update_idem]
    by_cases hlng : (F.payload n).length=0
    · simp only [hlng,if_true,Stage.eab,Stage.eabs] at heab heabs ⊢
      rw [← heab,← heabs,update_eq_self,update_eq_self]
      simp [Stage.descriptor,hlng,heads]
    · simp only [hlng,if_false,Stage.eab,Stage.eabs,allocateBuffer] at heab heabs ⊢
      simp [Stage.descriptor,hlng,heabs,heads]
  have hots : ∀ m≠n, SameAt s (s.cbAsync F n) m := by
    intro m hm
    rw [hcba]
    constructor <;> simp [hm]
  rw [hcba] at hots ⊢
  refine ⟨h.represents_update ?_ hots,h.valid_update ?_,h.seq,?_,?_,?_,?_,h.multicasts,h.failed⟩
  · constructor <;> simp [hx.opPost,hx.user,hx.written,hx.dones,hx.posted,hrt]
  · simp [Stage.Valid,hrt]
  · exact h.postQ.congr (iff_update (p := fun y => y = .waiting) (by simp [hsta]))
  · exact h.unexpQ.push (by simp [hsta,Stage.unexpected]) hla
      (or_update (p := fun y => y.unexpected=true) rfl)
  · exact h.ordered_update hnew hino
  · refine h.matched.congr fun m => ?_
    by_cases hm : m=n
    · subst hm
      simp [hsta]
    · simp only [update_of_ne hm]

end Arrivals

/-- Messages with the same key come in the order of their posts. -/
def InOrder (F : AsyncBroadcasts β) (s : AsyncState β) : AsyncEvent → Prop
  | .cbAsync n => ∀ m < n, F.key m = F.key n → (F.xfer m).root ≠ F.endpoint → s.arrived m = true
  | _ => True

theorem Tracks.cbAsync (h : Tracks F s stage) (hino : InOrder F s (.cbAsync n))
    (hs : s.step F (.cbAsync n) = some s') : Tracks F s' (Function.update stage n (stage n).arrive) := by
  obtain ⟨hno,hs⟩ := ite_none_left_eq_some.mp hs
  obtain rfl := some.inj hs
  obtain ⟨hnew,hrt⟩ := not_or.mp hno
  have hnew := not_eq_true _ ▸ hnew
  have hx := h.represents n
  have hard : (stage n).arrived=false := by
    by_contra hard
    exact Bool.false_ne_true (hnew.symm.trans (hx.arrived.mpr ⟨not_eq_false _ ▸ hard,hrt⟩))
  cases hsta : stage n with
  | idle => exact h.cbAsync_idle hrt hnew hino hsta
  | waiting => exact h.cbAsync_waiting hrt hnew hino hF hsta
  | _ =>
    rw [hsta] at hard
    cases hard

theorem Tracks.step (h : Tracks F s stage) {e : AsyncEvent} (hok : InOrder F s e) (hs : s.step F e = some s') :
    ∃ stage', Tracks F s' stage' := by
  cases e with
  | generate =>
    obtain rfl := some.inj hs
    exact ⟨_,h.generate hF⟩
  | cbAsync n => exact ⟨_,h.cbAsync hF hok hs⟩
  | received o => exact ⟨_,h.received hF hs⟩
  | sent o => exact ⟨_,h.sent hF hs⟩

theorem tracks_start : Tracks F (start F) fun _ => .idle where
  represents n := by
    constructor <;> simp [start]
  valid n := by by_cases hrt : (F.xfer n).root=F.endpoint <;> simp [Stage.Valid,hrt]
  seq := rfl
  postQ := .nil fun _ => Stage.noConfusion
  unexpQ := .nil fun _ => Bool.noConfusion
  ordered _ _ _ _ _ h := Bool.noConfusion h
  matched := ⟨[],rfl,fun n => iff_of_false not_mem_nil fun h => Bool.noConfusion h.1,nodup_nil⟩
  multicasts _ hm := absurd hm not_mem_nil
  failed := rfl

theorem tracks_run (hrun : Run (AsyncState.step F) (InOrder F) (start F) s) : ∃ stage, Tracks F s stage :=
  hrun.invariant (P := fun s => ∃ stage, Tracks F s stage) ⟨_,tracks_start hF⟩
    fun _ _ _ ⟨_,h⟩ hok hs => h.step hF hok hs

end Steps

/-- What is known of a broadcast is as its user expects. -/
structure Exact (F : AsyncBroadcasts β) (s : AsyncState β) (n : ℕ) : Prop where
  dones : s.dones n ≤ 1
  data : s.dones n = 1 → s.user n = F.payload n
  untouched : s.user n = (F.xfer n).buf ∨ s.user n = F.payload n
  written : s.written n ≤ 1
  once : s.dones n = 1 → (F.xfer n).root ≠ F.endpoint → F.payload n ≠ [] → s.written n = 1
  root : (F.xfer n).root = F.endpoint → s.user n = F.payload n ∧ s.written n = 0
  ead : (s.eads n).Balanced (s.ead n).isSome
  eab : (s.eabs n).Balanced (s.eab n).isSome

namespace Represents

variable (hx : Represents F s n x)
include hx

theorem dones_eq_one : s.dones n = 1 ↔ ∃ early, x = .done early := by
  rw [hx.dones]
  cases x <;> simp

theorem written_done (h : s.dones n = 1) (hrt : (F.xfer n).root≠F.endpoint) (hpay : F.payload n ≠ []) :
    s.written n = 1 := by
  obtain ⟨early,rfl⟩ := hx.dones_eq_one.mp h
  rw [hx.written]
  simp [hrt,hpay]

theorem written_le : s.written n ≤ 1 := by
  rw [hx.written]
  unfold Stage.written
  split
  · exact zero_le 1
  · cases x with
    | sending early posted => cases early <;> simp
    | _ => simp

theorem untouched : s.user n = (F.xfer n).buf ∨ s.user n = F.payload n := by
  rw [hx.user]
  cases x with
  | sending early posted => cases early <;> simp
  | _ => simp

theorem root (hF : F.Proper) (hrt : (F.xfer n).root=F.endpoint) : s.user n = F.payload n ∧ s.written n = 0 := by
  obtain huser | huser := hx.untouched
  · refine ⟨huser.trans (hF.root n hrt),?_⟩
    rw [hx.written]
    simp [hrt]
  · refine ⟨huser,?_⟩
    rw [hx.written]
    simp [hrt]

theorem balanced_ead : (s.eads n).Balanced (s.ead n).isSome := by
  rw [hx.eads,hx.ead,Ledger.Balanced]
  cases x with
  | receiving early posted | sending early posted | done early => cases early <;> simp
  | _ => simp

theorem balanced_eab : (s.eabs n).Balanced (s.eab n).isSome := by
  rw [hx.eabs,hx.eab,Ledger.Balanced]
  by_cases hlng : (F.payload n).length=0
  · simp only [Stage.eabs,Stage.eab,if_pos hlng]
    exact ⟨zero_le 1,rfl⟩
  · simp only [Stage.eabs,Stage.eab,if_neg hlng]
    cases x with
    | receiving early posted | sending early posted | done early => cases early <;> simp
    | _ => simp

theorem exact (hF : F.Proper) : Exact F s n where
  dones := by
    rw [hx.dones]
    cases x <;> simp
  data h := by
    obtain ⟨early,rfl⟩ := hx.dones_eq_one.mp h
    exact hx.user
  untouched := hx.untouched
  written := hx.written_le
  once := hx.written_done
  root := hx.root hF
  ead := hx.balanced_ead
  eab := hx.balanced_eab

theorem finished (hval : x.Valid F n)
    (hqui : ∀ o, s.step F (.received o) = none ∧ s.step F (.sent o) = none) (hpst : n < s.posted)
    (hcm : (F.xfer n).root=F.endpoint ∨ s.arrived n = true) :
    s.dones n = 1 ∧ s.ead n = none ∧ s.eab n = none := by
  have hps := hx.opPost
  have harr := hx.opArrival
  obtain ⟨hrec,hsn⟩ := hqui (.post n)
  obtain ⟨hrec',hsn'⟩ := hqui (.arrival n)
  have hx' := hx.posted.mp hpst
  cases x with
  | idle | completed => cases hx'
  | waiting =>
    have hrt : (F.xfer n).root≠F.endpoint := by
      intro heq
      unfold Stage.Valid at hval
      rw [if_pos heq] at hval
      simp at hval
    exact absurd (hx.arrived.mp (hcm.resolve_left hrt)).1 Bool.false_ne_true
  | receiving early posted =>
    cases early with
    | false => simp [step,hps] at hrec
    | true => simp [step,harr] at hrec'
  | sending early posted =>
    cases early with
    | false => simp [step,hps] at hsn
    | true => simp [step,harr] at hsn'
  | done early =>
    refine ⟨hx.dones,hx.ead,?_⟩
    rw [hx.eab]
    simp

end Represents

/-- In each run in which messages with the same key come in the order of their posts, and the keys tell apart what is not
`2 ^ 11` broadcasts apart: nothing fails, each broadcast meets its own message, once, and when nothing is under way, all
such broadcasts are done and their memory is freed. -/
theorem matching_runs {β : Type*} (F : AsyncBroadcasts β) (hF : F.Proper) (s : AsyncState β)
    (hrun : Run (AsyncState.step F) (InOrder F) (start F) s) :
    s.failed = false ∧
    Matches s.matched (fun n => n < s.posted ∧ s.arrived n = true) ∧
    (∀ n, Exact F s n) ∧
    (∀ m ∈ s.multicasts, ∃ n, m = F.sentBy F.endpoint n) ∧
    ((∀ o, s.step F (.received o) = none ∧ s.step F (.sent o) = none) →
      ∀ n < s.posted, (F.xfer n).root = F.endpoint ∨ s.arrived n = true →
        s.dones n = 1 ∧ s.ead n = none ∧ s.eab n = none) ∧
    ∀ comm, F.mgr = .commSeq comm → ∀ m n, F.key m = F.key n ↔ m % 2 ^ 11 = n % 2 ^ 11 := by
  obtain ⟨stage,h⟩ := tracks_run hF hrun
  refine ⟨h.failed,?_,fun n => (h.represents n).exact hF,h.multicasts,fun hqui n hpst hcm => ?_,
    fun comm hcomm m n => F.key_eq_iff n hcomm m⟩
  · exact h.matched.congr fun n => and_congr_left fun _ => (h.represents n).posted
  · exact (h.represents n).finished (h.valid n) hqui hpst hcm

instance (F : AsyncBroadcasts β) (s : AsyncState β) (e : AsyncEvent) : Decidable (InOrder F s e) :=
  match e with
  | .cbAsync n => inferInstanceAs (Decidable (∀ m < n, F.key m = F.key n → (F.xfer m).root ≠ F.endpoint →
      s.arrived m = true))
  | .generate => isTrue trivial
  | .received _ => isTrue trivial
  | .sent _ => isTrue trivial

/-- Endpoint 0 of communicator 0, where endpoint 1 sends its numbers. -/
def numbers : AsyncBroadcasts ℕ where
  endpoint := 0
  mgr := .commSeq 0
  xfer _ := ⟨1, 1, 1, [0]⟩
  payload n := [n + 1]
  peer _ := 1
  ndst root := 1 - root

theorem numbers_proper : numbers.Proper where
  payload _ := rfl
  buf _ := rfl
  root _ h := absurd h Nat.one_ne_zero
  ndst := Nat.one_pos
  dataSize _ _ := Nat.one_ne_zero

/-- The second message comes before its post, and before the first one. -/
theorem matching_runs_two : ∃ s : AsyncState ℕ, s.dones 0 = 1 ∧ s.dones 1 = 1 ∧ s.user 0 = [1] ∧ s.user 1 = [2] := by
  have heve : (execEvents (fun s e => if InOrder numbers s e then step numbers s e else none)
      [.cbAsync 1,.generate,.received (.arrival 1),.generate,.cbAsync 0,.received (.post 0)]
      (start numbers)).map (fun s => (s.dones 0, s.dones 1)) = some (1, 1) := by
    decide
  obtain ⟨s,hs,hdon⟩ := map_eq_some_iff.mp heve
  obtain ⟨h0,h1⟩ := Prod.mk.inj hdon
  obtain ⟨-,-,hexa,-⟩ := matching_runs numbers numbers_proper s (Run.refl.checked _ hs)
  exact ⟨s,h0,h1,(hexa 0).data h0,(hexa 1).data h1⟩

/-- The message with number `2 ^ 11` comes before the first post. -/
theorem matching_wraps : numbers.Proper ∧ ∃ s : AsyncState ℕ,
    Run (step numbers) (fun _ _ => True) (start numbers) s ∧ s.matched = [(0, 2 ^ 11)] ∧ s.dones 0 = 1 ∧
      s.user 0 ≠ numbers.payload 0 := by
  have heve : (execEvents (step numbers) [.cbAsync 2048,.received (.arrival 2048),.generate]
      (start numbers)).map (fun s => (s.matched, s.dones 0, s.user 0)) = some ([(0, 2048)], 1, [2049]) := by
    decide +kernel
  obtain ⟨s,hs,hend⟩ := map_eq_some_iff.mp heve
  obtain ⟨hmat,hend⟩ := Prod.mk.inj hend
  obtain ⟨hdon,huser⟩ := Prod.mk.inj hend
  refine ⟨numbers_proper,s,Run.refl.execEvents _ (fun _ _ _ => trivial) hs,hmat,hdon,?_⟩
  rw [huser]
  decide

end AsyncState

end PAMI.Protocol
