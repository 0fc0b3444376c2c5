import PAMI.Executor.CreditSystem

namespace PAMI.Executor

open PAMI.Math CreditState Function Option Nat Bool

variable {ι X α μ : Type*}

/-- A rank enters its next round, up to the message that its buffer is available; a round without a partner is passed. -/
inductive Enters (R : RoundTables ι) (L : ι → Standing → X → Prop) (r : ι) : Standing → X × Option Multicast → Prop
  | avail {σ : Standing} {x : X} (hrea : σ.Ready R r) (hrou : σ.entered < R.rounds)
      (hsou : (R.source r σ.entered).isSome = true) (hx : L r σ.enter x) :
      Enters R L r σ (x, some (.avail σ.entered))
  | ended {σ : Standing} {x : X} (hrea : σ.Ready R r) (hrou : σ.entered = R.rounds) (hx : L r σ.enter x) :
      Enters R L r σ (x, none)
  | skip {σ : Standing} {o : X × Option Multicast} (hrea : σ.Ready R r) (hrou : σ.entered < R.rounds)
      (hsou : R.source r σ.entered = none) (ho : Enters R L r σ.enter o) : Enters R L r σ o

/-- What a function of an executor does: nothing, or it sends the data of the round, or enters the next one. -/
inductive Outcome (R : RoundTables ι) (L : ι → Standing → X → Prop) (r : ι) : Standing → X × Option Multicast → Prop
  | stay {σ : Standing} {x : X} (hx : L r σ x) : Outcome R L r σ (x, none)
  | post {σ : Standing} {x : X} {j : ℕ} (hrou : σ.entered = j + 1) (hds : (R.dest r j).isSome = true)
      (hcm : σ.came j = true) (hfre : σ.posted = false) (hx : L r { σ with posted := true } x) :
      Outcome R L r σ (x, some (.data j))
  | enter {σ : Standing} {o : X × Option Multicast} (hstr : 0 < σ.entered) (ho : Enters R L r σ o) :
      Outcome R L r σ o

/-- What the functions of an executor do to a rank, by what it sees. A message that a buffer is available is received, and
its send completes, when the rank is not behind its last phase. -/
structure CreditSpec (R : RoundTables ι) (P : CreditProgram ι X) (L : ι → Standing → X → Prop) : Prop where
  entered : ∀ r σ x, L r σ x → P.entered x = σ.entered
  start : ∀ r σ x, L r σ x → σ.entered = 0 → Enters R L r σ (P.start r x)
  resume : ∀ r σ x o, L r σ x → P.resume r x = some o → Outcome R L r σ o
  sendDone : ∀ r σ x j, L r σ x → σ.entered = j + 1 → j < R.rounds → σ.posted = true → σ.sent = false →
    Outcome R L r { σ with sent := true } (P.notifySendDone r x)
  recvDone : ∀ r σ x j, L r σ x → σ.entered = j + 1 → j < R.rounds → (R.source r j).isSome = true →
    σ.received = false → Outcome R L r { σ with received := true } (P.notifyRecvDone r x)
  availRecvDone : ∀ r σ x j, L r σ x → (R.dest r j).isSome = true → σ.came j = true → σ.granted j = false →
    σ.entered ≤ R.rounds →
    Outcome R L r { σ with granted := update σ.granted j true } (P.notifyAvailRecvDone r x)
  availSendDone : ∀ r σ x b, L r σ x → 0 < σ.entered → σ.entered ≤ R.rounds → (σ.announced = true → b = true) →
    Outcome R L r { σ with announced := b } (P.notifyAvailSendDone r x)
  recvAvail : ∀ r b σ x j, L r σ x → R.dest r j = some b → σ.came j = false → σ.granted j = false →
    ¬ σ.Posted j → σ.entered ≤ j + 1 → (∀ i < j, R.dest r i = some b → σ.Posted i) →
    L r { σ with came := update σ.came j true } (P.notifyRecvAvail r b j x)
  recvData : ∀ r a σ x j, L r σ x → σ.entered = j + 1 → R.source r j = some a → σ.received = false →
    L r σ (P.notifyRecvData r a j x) ∧ P.place x = j
  waits : ∀ r σ x j, L r σ x → P.resume r x = none → σ.entered = j + 1 → j < R.rounds →
    (P.availDone = true → (R.source r j).isSome = true → σ.announced = true) →
    ((R.dest r j).isSome = true → σ.came j = true → σ.granted j = true → σ.posted = true) ∧
      ¬ (((R.dest r j).isSome = true → σ.sent = true) ∧ ((R.source r j).isSome = true → σ.received = true))

namespace CreditSystem

variable {R : RoundTables ι} {P : CreditProgram ι X} {C : CreditClient ι α μ} {M : ι → ℕ → μ}
  {J : ι → ℕ → Prop → α → Prop} {L : ι → Standing → X → Prop} {s s' : CreditSystem ι X α μ} {a b r : ι} {p : ℕ}
  {data : ι → α} {exec : ι → X}

/-- The rounds of the ranks are right, and each rank is where it sees itself. -/
structure Creditable (R : RoundTables ι) (P : CreditProgram ι X) (M : ι → ℕ → μ) (J : ι → ℕ → Prop → α → Prop)
    (L : ι → Standing → X → Prop) (s : CreditSystem ι X α μ) : Prop where
  credited : (s.rounds P).Credited R
  supplied : (s.rounds P).Supplied R M J
  placed : ∀ r, L r ((s.rounds P).standing R r) (s.exec r)

theorem creditable_new (hent : ∀ r, P.entered (exec r) = 0) (hda : ∀ r, J r 0 False (data r))
    (hplc : ∀ r, L r .none (exec r)) : Creditable R P M J L (new exec data) := by
  have hinit : (new exec data).rounds P=(init data : CreditState ι α μ) := by
    ext1
    case entered => exact funext hent
    all_goals rfl
  refine ⟨?_,?_,fun r => ?_⟩
  all_goals rw [hinit]
  · exact credited_init data
  · exact supplied_init hda
  · rw [standing_init]
    exact hplc r

variable [DecidableEq ι] {o : X × Option Multicast} {t : CreditState ι α μ}

theorem rounds_setExec {x : X} (s : CreditSystem ι X α μ) (r : ι) : (s.setExec r x).rounds P =
    { s.rounds P with entered := update (s.rounds P).entered r (P.entered x) } := by
  ext1
  case entered =>
    funext a
    simp only [rounds,CreditSystem.setExec,update_apply]
    split <;> rfl
  all_goals rfl

/-- The rounds after a rank went on: `t` is where its entries have led. -/
structure Led (R : RoundTables ι) (M : ι → ℕ → μ) (J : ι → ℕ → Prop → α → Prop) (L : ι → Standing → X → Prop) (r : ι)
    (s : CreditState ι α μ) (data : ι → α) (o : X × Option Multicast) (t : CreditState ι α μ) : Prop where
  credited : t.Credited R
  supplied : t.Supplied R M J
  placed : L r (t.standing R r) o.1
  others : ∀ a ≠ r, t.standing R a = s.standing R a
  same : t = { s with
    entered := update s.entered r (t.entered r)
    data := data
    permission := match o.2 with
      | some (.avail p) => put s.permission r p { s.permission r p with posted := true }
      | _ => s.permission }
  unsent : ∀ p, o.2 ≠ some (.data p)

theorem enter_led (hC : CreditServes R C M J) {σ : Standing} (ho : Enters R L r σ o) (ht : t.Credited R)
    (hsup : t.Supplied R M J) (hσ : t.standing R r = σ) {x : α}
    (hx : x = if t.entered r = 0 then C.start r (t.data r) else t.data r) :
    ∃ u, Led R M J L r t (update t.data r x) o u := by
  induction ho generalizing t x with
  | @avail σ y hrea hrou hsou hy =>
    subst hσ
    have hrea := ready_of_standing hrea
    refine ⟨(t.enter R r).setData r x,(ht.enter hrea).setData r x,hsup.enter hC ht hrea hx,?_,
      fun a hne => standing_enter_of_ne hne,?_,fun p h => by cases h⟩
    · rw [standing_setData,standing_enter ht]
      exact hy
    · have henr : t.enter R r = { t with
          entered := update t.entered r (t.entered r+1)
          permission := put t.permission r (t.entered r) { t.permission r (t.entered r) with posted := true } } :=
        if_pos hsou
      rw [henr]
      simp only [CreditState.setData,update_self]
      rfl
  | @ended σ y hrea hrou hy =>
    subst hσ
    have hrea := ready_of_standing hrea
    have hsou : ¬ (R.source r (t.entered r)).isSome=true := by
      intro hso
      obtain ⟨a,ha⟩ := isSome_iff_exists.mp hso
      exact absurd (R.bounded a r _ ((R.matched a r _).mpr ha)) hrou.not_lt
    refine ⟨(t.enter R r).setData r x,(ht.enter hrea).setData r x,hsup.enter hC ht hrea hx,?_,
      fun a hne => standing_enter_of_ne hne,?_,fun p h => by cases h⟩
    · rw [standing_setData,standing_enter ht]
      exact hy
    · have henr : t.enter R r = { t with entered := update t.entered r (t.entered r+1) } := if_neg hsou
      rw [henr]
      simp only [CreditState.setData,update_self]
  | @skip σ o hrea hrou hsou ho ih =>
    subst hσ
    have hrea := ready_of_standing hrea
    have henr : t.enter R r = { t with entered := update t.entered r (t.entered r+1) } :=
      if_neg (by rw [show R.source r (t.entered r)=none from hsou]; exact Bool.false_ne_true)
    have hnx := ih (t := (t.enter R r).setData r x) ((ht.enter hrea).setData r x)
      (hsup.enter hC ht hrea hx) (by rw [standing_setData,standing_enter ht]) (x := x) (by
        simp [CreditState.setData,henr])
    obtain ⟨u,hu⟩ := hnx
    refine ⟨u,hu.credited,hu.supplied,hu.placed,fun a hne => ?_,?_,hu.unsent⟩
    · rw [hu.others a hne,standing_setData,standing_enter_of_ne hne]
    · refine hu.same.trans ?_
      rw [henr]
      simp only [CreditState.setData,update_idem]

/-- All but one rank are where they see themselves. -/
structure Almost (R : RoundTables ι) (P : CreditProgram ι X) (M : ι → ℕ → μ) (J : ι → ℕ → Prop → α → Prop)
    (L : ι → Standing → X → Prop) (r : ι) (s : CreditSystem ι X α μ) : Prop where
  credited : (s.rounds P).Credited R
  supplied : (s.rounds P).Supplied R M J
  others : ∀ a ≠ r, L a ((s.rounds P).standing R a) (s.exec a)

omit [DecidableEq ι] in
theorem Creditable.almost (h : Creditable R P M J L s) (r : ι) : Almost R P M J L r s :=
  ⟨h.credited,h.supplied,fun a _ => h.placed a⟩

theorem exec_act (s : CreditSystem ι X α μ) (r : ι) (o : X × Option Multicast) :
    (s.act r o).exec = update s.exec r o.1 := by
  rw [act]
  split <;> rfl

theorem Almost.act_of (h : Almost R P M J L r s) (ht : t.Credited R) (hsup : t.Supplied R M J)
    (hplc : L r (t.standing R r) o.1) (hots : ∀ a≠r, t.standing R a = (s.rounds P).standing R a)
    (hex : s'.exec=s.exec) (hrnd : (s'.act r o).rounds P = t) : Creditable R P M J L (s'.act r o) := by
  refine ⟨hrnd ▸ ht,hrnd ▸ hsup,fun a => ?_⟩
  rw [hrnd,exec_act,hex]
  by_cases heq : a=r
  · subst heq
    rwa [update_self]
  · rw [update_of_ne heq,hots a heq]
    exact h.others a heq

theorem Almost.enter (hs : CreditSpec R P L) (hC : CreditServes R C M J) (h : Almost R P M J L r s)
    (ho : Enters R L r ((s.rounds P).standing R r) o) {x : α}
    (hx : x = if P.entered (s.exec r) = 0 then C.start r (s.data r) else s.data r) :
    Creditable R P M J L ((s.setData r x).act r o) := by
  obtain ⟨t,ht⟩ := enter_led hC ho h.credited h.supplied rfl (x := x) hx
  refine h.act_of ht.credited ht.supplied ht.placed ht.others rfl ?_
  have hent : P.entered o.1 = t.entered r := hs.entered r _ _ ht.placed
  rw [ht.same]
  obtain ⟨y,post⟩ := o
  cases post with
  | none =>
    show ((s.setData r x).setExec r y).rounds P = _
    rw [rounds_setExec,hent]
    rfl
  | some post =>
    cases post with
    | avail p =>
      show { ((s.setData r x).setExec r y).rounds P with
        permission := put s.permission r p { s.permission r p with posted := true } } = _
      rw [rounds_setExec,hent]
      rfl
    | data p => exact absurd rfl (ht.unsent p)

theorem Almost.act (hs : CreditSpec R P L) (hC : CreditServes R C M J) (h : Almost R P M J L r s)
    (ho : Outcome R L r ((s.rounds P).standing R r) o) : Creditable R P M J L (s.act r o) := by
  cases ho with
  | @stay x hx =>
    have hsm : (s.act r (x, none)).rounds P = s.rounds P := by
      show (s.setExec r x).rounds P = _
      rw [rounds_setExec,hs.entered r _ _ hx]
      simp only [standing,update_eq_self]
    exact h.act_of h.credited h.supplied hx (fun _ _ => rfl) rfl hsm
  | @post x j hrou hds hcm hfre hx =>
    have hsm : (s.act r (x, some (.data j))).rounds P = (s.rounds P).post r j := by
      show { (s.setExec r x).rounds P with
        message := put s.message r j { s.message r j with posted := true }
        sends := update s.sends r (s.sends r ++ [j]) } = _
      rw [rounds_setExec,hs.entered r _ _ hx]
      simp only [standing,update_eq_self]
      rfl
    obtain ⟨b,hb⟩ := isSome_iff_exists.mp hds
    have hla : (s.rounds P).entered r-1=j := pred_eq_of_eq_succ hrou
    simp only [standing,hla] at hfre
    simp only [standing,hb,any_some] at hcm
    refine h.act_of (h.credited.post hrou hfre hb hcm) h.supplied.post ?_
      (fun a hne => standing_post_of_ne hne) rfl hsm
    rw [standing_post hrou]
    exact hx
  | enter hstr ho =>
    have hda : s.setData r (s.data r)=s := by simp only [CreditSystem.setData,update_eq_self]
    have hgo := h.enter hs hC ho (x := s.data r) (if_neg hstr.ne').symm
    rwa [hda] at hgo

omit [DecidableEq ι] in
theorem Creditable.almost_of (h : Creditable R P M J L s) (r : ι) (hex : s'.exec=s.exec)
    (hcre : (s'.rounds P).Credited R) (hspp : (s'.rounds P).Supplied R M J)
    (hots : ∀ a≠r, (s'.rounds P).standing R a = (s.rounds P).standing R a) : Almost R P M J L r s' := by
  refine ⟨hcre,hspp,fun a hne => ?_⟩
  rw [hots a hne,hex]
  exact h.placed a

theorem Almost.setExec (hs : CreditSpec R P L) (h : Almost R P M J L r s) {x : X}
    (hx : L r ((s.rounds P).standing R r) x) : Creditable R P M J L (s.setExec r x) := by
  have hsm : (s.setExec r x).rounds P = s.rounds P := by
    rw [rounds_setExec,hs.entered r _ _ hx]
    simp only [standing,update_eq_self]
  exact h.act_of (o := (x, none)) h.credited h.supplied hx (fun _ _ => rfl) rfl hsm

theorem standing_setPermission (h : R.source a p = some b) (m : Permission)
    (hsn : m.sent=(s.permission a p).sent) :
    (((s.setPermission a p m).rounds P).standing R b = { (s.rounds P).standing R b with
      came := update ((s.rounds P).standing R b).came p m.incoming
      granted := update ((s.rounds P).standing R b).granted p m.complete }) ∧
    ∀ c≠b, ((s.setPermission a p m).rounds P).standing R c = (s.rounds P).standing R c := by
  have hds := (R.matched b a p).mpr h
  have hsm : ∀ c i, ((s.setPermission a p m).permission c i).sent=(s.permission c i).sent :=
    put_congr Permission.sent hsn
  constructor
  · ext
    case announced => exact hsm b _
    case came i =>
      simp only [standing,rounds,update_apply]
      split
      case isTrue heq =>
        subst heq
        rw [hds,any_some]
        exact congrArg Permission.incoming put_self
      case isFalse hne => simp only [CreditSystem.setPermission,put_of_ne fun heq => hne heq.2]
    case granted i =>
      simp only [standing,rounds,update_apply]
      split
      case isTrue heq =>
        subst heq
        rw [hds,any_some]
        exact congrArg Permission.complete put_self
      case isFalse hne => simp only [CreditSystem.setPermission,put_of_ne fun heq => hne heq.2]
    all_goals rfl
  · intro c hne
    have hoth : ∀ d i, R.dest c i = some d → (s.setPermission a p m).permission d i = s.permission d i := by
      intro d i hd
      refine put_of_ne ?_
      rintro ⟨rfl,rfl⟩
      exact hne (some.inj (((R.matched c d i).mp hd).symm.trans h))
    exact standing_congr rfl (fun _ => rfl) (fun _ => rfl) (fun _ _ _ => rfl) (hsm c)
      (fun d i hd => congrArg Permission.incoming (hoth d i hd))
      fun d i hd => congrArg Permission.complete (hoth d i hd)

theorem standing_setMessage {m : PhaseMessage μ} (hpst : m.posted=(s.message a p).posted)
    (hsn : a≠r ∨ m.sent=(s.message a p).sent)
    (hcom : R.dest a p ≠ some r ∨ m.complete=(s.message a p).complete) :
    ((s.setMessage a p m).rounds P).standing R r = (s.rounds P).standing R r := by
  refine standing_congr rfl (put_congr PhaseMessage.posted hpst r) (fun i => ?_) (fun b i hb => ?_) (fun _ => rfl)
    (fun _ _ _ => rfl) fun _ _ _ => rfl
  · cases hsn with
    | inl hne => exact congrArg PhaseMessage.sent (put_of_ne fun heq => hne heq.1.symm)
    | inr heq => exact put_congr PhaseMessage.sent heq r i
  · cases hcom with
    | inl hne =>
      refine congrArg PhaseMessage.complete (put_of_ne ?_)
      rintro ⟨rfl,rfl⟩
      exact hne ((R.matched b r i).mpr hb)
    | inr heq => exact put_congr PhaseMessage.complete heq b i

section Steps

variable (hs : CreditSpec R P L) (hC : CreditServes R C M J) (h : Creditable R P M J L s)
include hs hC h

theorem Creditable.start (he : s.start P C r = some s') : Creditable R P M J L s' := by
  obtain ⟨hzr,rfl⟩ := ite_some_none_eq_some.mp he
  exact (h.almost r).enter hs hC (hs.start r _ _ (h.placed r) hzr) (if_pos hzr).symm

theorem Creditable.resume (he : s.resume P r = some s') : Creditable R P M J L s' := by
  obtain ⟨o,ho,rfl⟩ := map_eq_some_iff.mp he
  exact (h.almost r).act hs hC (hs.resume r _ _ o (h.placed r) ho)

theorem Creditable.availSent (htime : P.entered (s.exec a) ≤ R.rounds) (he : s.availSent P a p = some s') : Creditable R P M J L s' := by
  obtain ⟨⟨-,hpst,-⟩,rfl⟩ := ite_some_none_eq_some.mp he
  have hinc : ∀ b i, ((s.setPermission a p { s.permission a p with sent := true }).permission b i).incoming =
      (s.permission b i).incoming := put_congr Permission.incoming rfl
  have hcom : ∀ b i, ((s.setPermission a p { s.permission a p with sent := true }).permission b i).complete =
      (s.permission b i).complete := put_congr Permission.complete rfl
  have hlt : p<P.entered (s.exec a) := ((h.credited.permission a p).mp hpst).2
  have halm : Almost R P M J L a (s.setPermission a p { s.permission a p with sent := true }) := by
    refine h.almost_of a rfl ?_ (h.supplied.setPermission (a := a) (j := p) _) fun b hne => ?_
    · exact h.credited.setPermission rfl (fun _ => hpst) (h.credited.incoming a p) (h.credited.complete a p) id
    · exact standing_congr rfl (fun _ => rfl) (fun _ => rfl) (fun _ _ _ => rfl)
        (fun _ => congrArg Permission.sent (put_of_ne fun heq => hne heq.1)) (fun b i _ => hinc b i)
        fun b i _ => hcom b i
  refine halm.act hs hC ?_
  · have hspec := hs.availSendDone a _ _
      (((s.setPermission a p { s.permission a p with sent := true }).permission a (P.entered (s.exec a)-1)).sent)
      (h.placed a) (zero_lt_of_lt hlt) htime fun hann => ?_
    · have hsta : ((s.setPermission a p { s.permission a p with sent := true }).rounds P).standing R a =
          { (s.rounds P).standing R a with announced := ((s.setPermission a p
            { s.permission a p with sent := true }).permission a (P.entered (s.exec a)-1)).sent } := by
        simp only [standing,rounds,hinc,hcom]
        rfl
      rw [hsta]
      exact hspec
    · refine put_all (P := fun b i (m : Permission) => (s.permission b i).sent=true → m.sent=true) (fun _ => rfl)
        (fun _ _ => id) a _ hann

omit hC in
theorem Creditable.availIncoming (he : s.availIncoming R P a p = some s') : Creditable R P M J L s' := by
  obtain ⟨⟨hpst,hfre⟩,he⟩ := ite_none_right_eq_some.mp he
  obtain ⟨b,hsou,rfl⟩ := map_eq_some_iff.mp he
  have hds := (R.matched b a p).mpr hsou
  have hine : (s.permission a p).complete=false := by
    rw [← not_eq_true]
    exact fun hcom => Bool.false_ne_true (hfre.symm.trans (h.credited.complete a p hcom))
  obtain ⟨hse,hots⟩ := standing_setPermission (P := P) (s := s) hsou
    { s.permission a p with incoming := true } rfl
  have hcm : ((s.rounds P).standing R b).came p=false := by
    simp only [standing,hds,any_some]
    exact hfre
  have hgra : ((s.rounds P).standing R b).granted p=false := by
    simp only [standing,hds,any_some]
    exact hine
  have hunp := h.credited.unposted hds hfre
  have hent : p<P.entered (s.exec a) := ((h.credited.permission a p).mp hpst).2
  have halm : Almost R P M J L b (s.setPermission a p { s.permission a p with incoming := true }) := by
    refine h.almost_of b rfl ?_ (h.supplied.setPermission (a := a) (j := p) _) hots
    exact h.credited.setPermission rfl (h.credited.announced a p) (fun _ => hpst)
      (fun hcom => h.credited.complete a p hcom ▸ rfl) fun _ => rfl
  refine halm.setExec hs ?_
  have hspec := hs.recvAvail b a _ _ p (h.placed b) hds hcm hgra ?_ ?_ fun i hi hds' => ?_
  · have hkeep : update ((s.rounds P).standing R b).granted p (s.permission a p).complete =
        ((s.rounds P).standing R b).granted := by
      rw [update_eq_self_iff,hgra,hine]
    rw [hse,hkeep]
    exact hspec
  · rw [← h.credited.posted_iff (isSome_of_eq_some hds),hunp]
    exact Bool.false_ne_true
  · by_contra hlt
    have hpas := h.credited.posted_of_passed (not_le.mp hlt) (isSome_of_eq_some hds)
    rw [hunp] at hpas
    contradiction
  · -- Who has entered a round has received the data of the rounds before.
    have hcom := h.credited.passed_complete b a i (Nat.lt_of_le_of_lt (succ_le_of_lt hi) hent)
      ((R.matched b a i).mp hds')
    have hord := h.credited.ordered b i
    exact (h.credited.posted_iff (isSome_of_eq_some hds')).mp (hord.data (hord.complete hcom))

theorem Creditable.availComplete (htime : ∀ b, R.source a p = some b → P.entered (s.exec b) ≤ R.rounds)
    (he : s.availComplete R P a p = some s') : Creditable R P M J L s' := by
  obtain ⟨⟨hinc,hfre⟩,he⟩ := ite_none_right_eq_some.mp he
  obtain ⟨b,hsou,rfl⟩ := map_eq_some_iff.mp he
  have hds := (R.matched b a p).mpr hsou
  obtain ⟨hse,hots⟩ := standing_setPermission (P := P) (s := s) hsou
    { s.permission a p with complete := true } rfl
  have hcm : ((s.rounds P).standing R b).came p=true := by
    simp only [standing,hds,any_some]
    exact hinc
  have hgra : ((s.rounds P).standing R b).granted p=false := by
    simp only [standing,hds,any_some]
    exact hfre
  have halm : Almost R P M J L b (s.setPermission a p { s.permission a p with complete := true }) := by
    refine h.almost_of b rfl ?_ (h.supplied.setPermission (a := a) (j := p) _) hots
    exact h.credited.setPermission rfl (h.credited.announced a p) (h.credited.incoming a p) (fun _ => hinc) id
  refine halm.act hs hC ?_
  have hspec := hs.availRecvDone b _ _ p (h.placed b) (isSome_of_eq_some hds) hcm hgra (htime b hsou)
  have hkeep : update ((s.rounds P).standing R b).came p (s.permission a p).incoming =
      ((s.rounds P).standing R b).came := by
    rw [update_eq_self_iff,hcm,hinc]
  rw [hse,hkeep]
  exact hspec

omit hs in
theorem Creditable.transmit (he : s.transmit C a p = some s') : Creditable R P M J L s' := by
  obtain ⟨⟨hpst,hnn⟩,rfl⟩ := ite_some_none_eq_some.mp he
  have hord := h.credited.ordered a p
  refine ⟨?_,h.supplied.transmit hC h.credited hpst (isNone_iff_eq_none.mp hnn),fun r => ?_⟩
  · exact h.credited.setMessage rfl ⟨fun _ => hpst,fun _ => rfl,fun _ => rfl,fun _ => rfl⟩
      (h.credited.received a p) id id
  · rw [standing_setMessage (m := { s.message a p with data := some (C.payload a p (s.data a)) }) rfl (.inr rfl) (.inr rfl)]
    exact h.placed r

theorem Creditable.sent (he : s.sent P a p = some s') : Creditable R P M J L s' := by
  obtain ⟨⟨hda,hfre⟩,rfl⟩ := ite_some_none_eq_some.mp he
  have hord := h.credited.ordered a p
  have hpst := hord.data hda
  have hrou := h.credited.round_of_unsent hpst hfre
  have hla : P.entered (s.exec a)-1=p := pred_eq_of_eq_succ hrou
  obtain ⟨b,hds⟩ := h.credited.dest_of_posted hpst
  have hcom : ∀ b i, ((s.setMessage a p { s.message a p with sent := true }).message b i).complete =
      (s.message b i).complete := put_congr PhaseMessage.complete rfl
  have hkeep : ∀ b i, ((s.setMessage a p { s.message a p with sent := true }).message b i).posted =
      (s.message b i).posted := put_congr PhaseMessage.posted rfl
  have halm : Almost R P M J L a (s.setMessage a p { s.message a p with sent := true }) := by
    refine h.almost_of a rfl ?_ (h.supplied.setMessage (a := a) (j := p) (m := { s.message a p with sent := true })
      rfl rfl) fun c hne => ?_
    · exact h.credited.setMessage rfl ⟨hord.data,fun _ => hda,hord.incoming,hord.complete⟩
        (h.credited.received a p) (fun _ => rfl) id
    · exact standing_setMessage rfl (.inl hne.symm) (.inr rfl)
  refine halm.act hs hC ?_
  have hsta : ((s.setMessage a p { s.message a p with sent := true }).rounds P).standing R a =
      { (s.rounds P).standing R a with sent := true } := by
    ext
    case posted => exact hkeep a _
    case sent =>
      show (put s.message a p { s.message a p with sent := true } a (P.entered (s.exec a)-1)).sent=true
      rw [hla,put_self]
    case received =>
      simp only [standing,rounds,hcom]
      rfl
    all_goals rfl
  rw [hsta]
  refine hs.sendDone a _ _ p (h.placed a) hrou (R.bounded a b p hds) ?_ ?_
  · simp only [standing,rounds,hla]
    exact hpst
  · simp only [standing,rounds,hla]
    exact hfre

theorem Creditable.complete (he : s.complete R P a p = some s') : Creditable R P M J L s' := by
  obtain ⟨⟨hinc,hfre⟩,he⟩ := ite_none_right_eq_some.mp he
  obtain ⟨b,hds,rfl⟩ := map_eq_some_iff.mp he
  have hsou := (R.matched a b p).mp hds
  have hord := h.credited.ordered a p
  have hda := hord.incoming hinc
  have hrou := h.credited.round_of_dest (hord.data hda) hds hfre
  have hla : P.entered (s.exec b)-1=p := pred_eq_of_eq_succ hrou
  have hkeep : ∀ c i, ((s.setMessage a p { s.message a p with complete := true }).message c i).posted =
      (s.message c i).posted := put_congr PhaseMessage.posted rfl
  have hsn : ∀ c i, ((s.setMessage a p { s.message a p with complete := true }).message c i).sent =
      (s.message c i).sent := put_congr PhaseMessage.sent rfl
  have halm : Almost R P M J L b (s.setMessage a p { s.message a p with complete := true }) := by
    refine h.almost_of b rfl ?_ (h.supplied.setMessage (a := a) (j := p) (m := { s.message a p with complete := true })
      rfl rfl) fun c hne => ?_
    · exact h.credited.setMessage rfl ⟨hord.data,hord.sent,hord.incoming,fun _ => hda⟩
        (fun _ => hinc) id fun _ => rfl
    · exact standing_setMessage rfl (.inr rfl) (.inl fun heq => hne (some.inj (heq.symm.trans hds)))
  refine halm.act hs hC ?_
  have hsta : ((s.setMessage a p { s.message a p with complete := true }).rounds P).standing R b =
      { (s.rounds P).standing R b with received := true } := by
    ext
    case posted => exact hkeep b _
    case sent => exact hsn b _
    case received =>
      show ((R.source b (P.entered (s.exec b)-1)).any fun c =>
        (put s.message a p { s.message a p with complete := true } c (P.entered (s.exec b)-1)).complete)=true
      rw [hla,hsou,any_some,put_self]
    all_goals rfl
  rw [hsta]
  refine hs.recvDone b _ _ p (h.placed b) hrou (R.bounded a b p hds) (isSome_of_eq_some hsou) ?_
  simp only [standing,rounds,hla,hsou,any_some]
  exact hfre

theorem Creditable.incoming (he : s.incoming R P C a p = some s') : Creditable R P M J L s' := by
  obtain ⟨hfre,he⟩ := ite_none_left_eq_some.mp he
  have hfre := not_eq_true _ ▸ hfre
  obtain ⟨b,hds,he⟩ := bind_eq_some_iff.mp he
  obtain ⟨x,hx,rfl⟩ := map_eq_some_iff.mp he
  have hsou := (R.matched a b p).mp hds
  have hord := h.credited.ordered a p
  have hda : (s.message a p).data.isSome := isSome_of_eq_some hx
  have hine : (s.message a p).complete=false := by
    rw [← not_eq_true]
    exact fun hcom => Bool.false_ne_true (hfre.symm.trans (h.credited.received a p hcom))
  have hrou := h.credited.round_of_dest (hord.data hda) hds hine
  have hla : P.entered (s.exec b)-1=p := pred_eq_of_eq_succ hrou
  obtain ⟨hplc,hpla⟩ := hs.recvData b a _ _ p (h.placed b) hrou hsou (by
    simp only [standing,rounds,hla,hsou,any_some]
    exact hine)
  have hsm : ∀ c, ((s.setMessage a p { s.message a p with incoming := true }).rounds P).standing R c =
      (s.rounds P).standing R c := fun c => standing_setMessage rfl (.inr rfl) (.inr rfl)
  have halm : Almost R P M J L b
      ((s.setMessage a p { s.message a p with incoming := true }).setData b (C.deliver b p x (s.data b))) := by
    refine h.almost_of b rfl ?_ (h.supplied.incoming hC h.credited hfre hds hx) fun c _ => hsm c
    exact (h.credited.setMessage (a := a) (j := p) (m := { s.message a p with incoming := true }) rfl
      ⟨hord.data,hord.sent,fun _ => hda,hord.complete⟩ (fun _ => rfl) id id).setData b _
  rw [hpla]
  exact halm.setExec hs ((hsm b).symm ▸ hplc)

end Steps

/-- A message that a buffer is available is received, and its send completes, before the rank is behind its last phase. -/
def InTime (R : RoundTables ι) (P : CreditProgram ι X) (s : CreditSystem ι X α μ) : CreditEvent ι → Prop
  | .availSent a _ => P.entered (s.exec a) ≤ R.rounds
  | .availComplete a p => ∀ b ∈ R.source a p, P.entered (s.exec b) ≤ R.rounds
  | _ => True

instance (s : CreditSystem ι X α μ) (e : CreditEvent ι) : Decidable (s.InTime R P e) :=
  match e with
  | .availSent a _ => inferInstanceAs (Decidable (P.entered (s.exec a) ≤ R.rounds))
  | .availComplete a p => inferInstanceAs (Decidable (∀ b ∈ R.source a p, P.entered (s.exec b) ≤ R.rounds))
  | .start _ => isTrue trivial
  | .resume _ => isTrue trivial
  | .availIncoming _ _ => isTrue trivial
  | .transmit _ _ => isTrue trivial
  | .sent _ _ => isTrue trivial
  | .incoming _ _ => isTrue trivial
  | .complete _ _ => isTrue trivial

theorem Creditable.step (hs : CreditSpec R P L) (hC : CreditServes R C M J) (h : Creditable R P M J L s)
    {e : CreditEvent ι} (hok : s.InTime R P e) (he : s.step R P C e = some s') : Creditable R P M J L s' := by
  cases e with
  | start r => exact h.start hs hC he
  | resume r => exact h.resume hs hC he
  | availSent a p => exact h.availSent hs hC hok he
  | availIncoming a p => exact h.availIncoming hs he
  | availComplete a p => exact h.availComplete hs hC hok he
  | transmit a p => exact h.transmit hC he
  | sent a p => exact h.sent hs hC he
  | incoming a p => exact h.incoming hs hC he
  | complete a p => exact h.complete hs hC he

theorem creditable_run (hs : CreditSpec R P L) (hC : CreditServes R C M J)
    (hent : ∀ r, P.entered (exec r) = 0) (hda : ∀ r, J r 0 False (data r))
    (hplc : ∀ r, L r .none (exec r)) (h : Run (step R P C) (InTime R P) (new exec data) s) :
    Creditable R P M J L s :=
  h.invariant (creditable_new hent hda hplc) fun _ _ _ h hok he => h.step hs hC hok he

def Settled (R : RoundTables ι) (P : CreditProgram ι X) (C : CreditClient ι α μ) (s : CreditSystem ι X α μ) : Prop :=
  ∀ e, s.InTime R P e → s.step R P C e = none

section

variable (hstt : s.Settled R P C)
include hstt

theorem Settled.started (r : ι) : 0 < P.entered (s.exec r) := by
  apply Nat.pos_of_ne_zero
  intro hzr
  have hsp : s.start P C r=none := hstt (.start r) trivial
  rw [CreditSystem.start,if_pos hzr] at hsp
  contradiction

theorem Settled.incoming (h : Creditable R P M J L s) (hpst : (s.permission a p).posted=true) :
    (s.permission a p).incoming=true := by
  obtain ⟨b,hb⟩ := isSome_iff_exists.mp ((h.credited.permission a p).mp hpst).1
  by_contra hno
  have hsp : s.availIncoming R P a p=none := hstt (.availIncoming a p) trivial
  rw [CreditSystem.availIncoming,if_pos ⟨hpst,eq_false_iff.mpr hno⟩,hb] at hsp
  contradiction

theorem Settled.granted (hb : R.source a p = some b) (htime : P.entered (s.exec b) ≤ R.rounds)
    (hinc : (s.permission a p).incoming=true) : (s.permission a p).complete=true := by
  by_contra hno
  have hsp : s.availComplete R P a p=none := hstt (.availComplete a p) fun c hc => by
    obtain rfl := some.inj (hb.symm.trans hc)
    exact htime
  rw [CreditSystem.availComplete,if_pos ⟨hinc,eq_false_iff.mpr hno⟩,hb] at hsp
  contradiction

theorem Settled.announced (hdn : P.availDone=true) (htime : P.entered (s.exec a) ≤ R.rounds)
    (hpst : (s.permission a p).posted=true) : (s.permission a p).sent=true := by
  by_contra hno
  have hsp : s.availSent P a p=none := hstt (.availSent a p) htime
  rw [CreditSystem.availSent,if_pos ⟨hdn,hpst,eq_false_iff.mpr hno⟩] at hsp
  contradiction

theorem Settled.through (h : Creditable R P M J L s) (hpst : (s.message a p).posted=true) :
    (s.message a p).sent=true ∧ (s.message a p).complete=true := by
  obtain ⟨b,hb⟩ := h.credited.dest_of_posted hpst
  have hda : (s.message a p).data.isSome=true := by
    by_contra hno
    have hsp : s.transmit C a p=none := hstt (.transmit a p) trivial
    rw [CreditSystem.transmit,if_pos ⟨hpst,isNone_iff_eq_none.mpr (not_isSome_iff_eq_none.mp hno)⟩]
      at hsp
    contradiction
  have hinc : (s.message a p).incoming=true := by
    by_contra hno
    obtain ⟨x,hx⟩ := isSome_iff_exists.mp hda
    have hsp : s.incoming R P C a p=none := hstt (.incoming a p) trivial
    rw [CreditSystem.incoming,if_neg hno,hb,hx] at hsp
    contradiction
  constructor
  · by_contra hno
    have hsp : s.sent P a p=none := hstt (.sent a p) trivial
    rw [CreditSystem.sent,if_pos ⟨hda,eq_false_iff.mpr hno⟩] at hsp
    contradiction
  · by_contra hno
    have hsp : s.complete R P a p=none := hstt (.complete a p) trivial
    rw [CreditSystem.complete,if_pos ⟨hinc,eq_false_iff.mpr hno⟩,hb] at hsp
    contradiction

theorem Settled.still (hs : CreditSpec R P L) (h : Creditable R P M J L s) : (s.rounds P).Still R := by
  have hwai := fun r j (hrou : P.entered (s.exec r)=j+1) (hj : j<R.rounds) =>
    hs.waits r _ _ j (h.placed r) (map_eq_none_iff.mp (hstt (.resume r) trivial)) hrou hj fun hdn hsou => by
      have hla : P.entered (s.exec r)-1=j := pred_eq_of_eq_succ hrou
      have hpst := (h.credited.permission r j).mpr ⟨hsou,(lt_succ_self j).trans_eq hrou.symm⟩
      simp only [standing,rounds,hla]
      exact hstt.announced hdn (hrou.trans_le hj) hpst
  refine ⟨hstt.started,fun a j hpst => hstt.incoming h hpst,fun a j hpst => hstt.through h hpst,
    fun a b j hrou hj hds hin => ?_,fun r j hrou hj hov => ?_⟩
  · have hla : P.entered (s.exec a)-1=j := pred_eq_of_eq_succ hrou
    have hpst := (hwai a j hrou hj).1 (isSome_of_eq_some hds)
    simp only [standing,hds,any_some,rounds,hla] at hpst
    exact hpst hin (hstt.granted ((R.matched a b j).mp hds) (hrou.trans_le hj) hin)
  · have hla : P.entered (s.exec r)-1=j := pred_eq_of_eq_succ hrou
    refine (hwai r j hrou hj).2 ⟨fun hds => ?_,fun hsou => ?_⟩
    · simp only [standing,rounds,hla]
      exact hov.1 hds
    · obtain ⟨a,ha⟩ := isSome_iff_exists.mp hsou
      simp only [standing,rounds,hla,ha,any_some]
      exact hov.2 a ha

theorem Settled.ended (hs : CreditSpec R P L) (h : Creditable R P M J L s) (r : ι) :
    P.entered (s.exec r) = R.rounds+1 :=
  (hstt.still hs h).ended h.credited r

end

def Quiet (R : RoundTables ι) (P : CreditProgram ι X) (C : CreditClient ι α μ) (s : CreditSystem ι X α μ) : Prop :=
  ∀ e, s.step R P C e = none

theorem Quiet.settled (hqui : s.Quiet R P C) : s.Settled R P C := fun e _ => hqui e

end CreditSystem

end PAMI.Executor
