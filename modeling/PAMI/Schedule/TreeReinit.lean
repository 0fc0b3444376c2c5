import Mathlib.Algebra.Order.BigOperators.Group.List
import PAMI.Schedule.SingleTree

namespace PAMI.Schedule

open PAMI.Math Splitting List Option Nat

namespace InitLoop

variable {T : TreeParameters} {myrank nranks : ℕ} {p z : List ℕ} {l r : ℤ} {s f : InitLoop}

/-- The loop of `init` on an object with partners, sizes and start phases from before, beside the loop on a new one. -/
structure Resumes (p z : List ℕ) (l r : ℤ) (s f : InitLoop) : Prop where
  nodesLeft : s.nodesLeft = f.nodesLeft
  curPos : s.curPos = f.curPos
  phase : s.phase = f.phase
  partners : s.partners = p ++ f.partners
  subsizes : s.subsizes = z ++ f.subsizes
  lstartph : s.lstartph = if l = -1 then f.lstartph else l
  rstartph : s.rstartph = if r = -1 then f.rstartph else r
  src : f.lstartph ≠ -1 → s.src = f.src

section

variable (h : Resumes p z l r s f)
include h

theorem Resumes.addPartners :
    Resumes p z l r (s.addPartners T myrank nranks) (f.addPartners T myrank nranks) := by
  rw [InitLoop.addPartners,InitLoop.addPartners,h.curPos,h.nodesLeft]
  by_cases h0 : f.curPos=0
  · rw [if_pos h0,if_pos h0]
    refine ⟨rfl,rfl,h.phase,?_,?_,h.lstartph,?_,h.src⟩
    · simp only [h.partners,append_assoc]
    · simp only [h.subsizes,append_assoc]
    · simp only [h.rstartph,h.phase]
      by_cases hr : r = -1
      · simp only [if_pos hr]
      · simp only [if_neg hr]
  · rw [if_neg h0,if_neg h0]
    exact h

theorem Resumes.receive (src : ℕ) : Resumes p z l r (s.receive src) (f.receive src) where
  nodesLeft := h.nodesLeft
  curPos := h.curPos
  phase := h.phase
  partners := h.partners
  subsizes := h.subsizes
  lstartph := by
    simp only [InitLoop.receive,h.lstartph,h.phase]
    by_cases hl : l = -1
    · simp only [if_pos hl]
    · simp only [if_neg hl]
  rstartph := h.rstartph
  src := fun _ => rfl

theorem Resumes.findSource :
    Resumes p z l r (s.findSource T myrank nranks) (f.findSource T myrank nranks) := by
  rw [InitLoop.findSource,InitLoop.findSource,h.curPos,h.nodesLeft]
  by_cases hbig : T.pbig f.nodesLeft≤f.curPos
  · rw [if_pos hbig,if_pos hbig]
    clear hbig
    generalize List.range T.nports=is
    generalize f.curPos=c, f.nodesLeft=n
    induction is generalizing s f with
    | nil => exact h
    | cons i is ih =>
      rw [foldl_cons,foldl_cons]
      apply ih
      by_cases hi : c=T.pbig n+i*T.psmall n
      · rw [if_pos hi,if_pos hi]
        exact h.receive _
      · rw [if_neg hi,if_neg hi]
        exact h
  · rw [if_neg hbig,if_neg hbig]
    exact h

theorem Resumes.descend : Resumes p z l r (s.descend T) (f.descend T) := by
  rw [InitLoop.descend,InitLoop.descend,h.curPos,h.nodesLeft]
  by_cases hbig : f.curPos<T.pbig f.nodesLeft
  · rw [if_pos hbig,if_pos hbig]
    exact ⟨rfl,rfl,congrArg (· + 1) h.phase,h.partners,h.subsizes,h.lstartph,h.rstartph,h.src⟩
  · rw [if_neg hbig,if_neg hbig]
    exact ⟨rfl,rfl,congrArg (· + 1) h.phase,h.partners,h.subsizes,h.lstartph,h.rstartph,h.src⟩

theorem Resumes.step : Resumes p z l r (s.step T myrank nranks) (f.step T myrank nranks) :=
  h.addPartners.findSource.descend

theorem Resumes.run {fuel : ℕ} {f' : InitLoop} (hf : f.run T myrank nranks fuel = some f') :
    ∃ s', s.run T myrank nranks fuel = some s' ∧ Resumes p z l r s' f' := by
  induction fuel generalizing s f with
  | zero =>
    obtain ⟨hle,hso⟩ := ite_none_left_eq_some.mp hf
    obtain rfl := some.inj hso
    exact ⟨s,by rw [InitLoop.run,h.nodesLeft,if_neg hle],h⟩
  | succ fuel ih =>
    rw [InitLoop.run] at hf
    rw [InitLoop.run,h.nodesLeft]
    by_cases hmn : 1<f.nodesLeft
    · rw [if_pos hmn] at hf ⊢
      exact ih h.step hf
    · rw [if_neg hmn] at hf ⊢
      obtain rfl := some.inj hf
      exact ⟨s,rfl,h⟩

end

def Sized (s : InitLoop) : Prop := s.subsizes.length = s.partners.length ∧ ∀ x ∈ s.subsizes, 0 < x

theorem Sized.addPartners (h : s.Sized) : (s.addPartners T myrank nranks).Sized := by
  rw [InitLoop.addPartners]
  by_cases h0 : s.curPos=0
  · rw [if_pos h0]
    refine ⟨?_,fun x hx => ?_⟩
    · simp only [length_append,length_map,h.1]
    · obtain hx | hx := mem_append.mp hx
      · exact h.2 x hx
      · obtain ⟨i,hi,rfl⟩ := List.mem_map.mp hx
        have hlt := of_decide_eq_true (mem_filter.mp hi).2
        rw [if_neg (by omega)]
        omega
  · rw [if_neg h0]
    exact h

theorem findSource_lists (s : InitLoop) : (s.findSource T myrank nranks).partners=s.partners ∧
    (s.findSource T myrank nranks).subsizes=s.subsizes := by
  rw [InitLoop.findSource]
  by_cases hbig : T.pbig s.nodesLeft ≤ s.curPos
  · rw [if_pos hbig]
    clear hbig
    generalize List.range T.nports=is
    generalize s.curPos=c, s.nodesLeft=n
    induction is generalizing s with
    | nil => exact ⟨rfl,rfl⟩
    | cons i is ih =>
      rw [foldl_cons]
      by_cases hi : c=T.pbig n+i*T.psmall n
      · rw [if_pos hi]
        exact ih _
      · rw [if_neg hi]
        exact ih _
  · rw [if_neg hbig]
    exact ⟨rfl,rfl⟩

theorem Sized.step (h : s.Sized) : (s.step T myrank nranks).Sized := by
  have hadd : (s.addPartners T myrank nranks).Sized := h.addPartners
  have hlis : ((s.addPartners T myrank nranks).findSource T myrank nranks).partners = _ ∧
      ((s.addPartners T myrank nranks).findSource T myrank nranks).subsizes = _ :=
    findSource_lists (s.addPartners T myrank nranks)
  rw [Sized,← hlis.1,← hlis.2] at hadd
  rw [InitLoop.step,InitLoop.descend]
  split <;> exact hadd

theorem Sized.run (h : s.Sized) {fuel : ℕ} {s' : InitLoop} (hs : s.run T myrank nranks fuel = some s') : s'.Sized := by
  induction fuel generalizing s with
  | zero =>
    obtain ⟨-,hso⟩ := ite_none_left_eq_some.mp hs
    exact some.inj hso ▸ h
  | succ fuel ih =>
    rw [InitLoop.run] at hs
    by_cases hmn : 1 < s.nodesLeft
    · rw [if_pos hmn] at hs
      exact ih h.step hs
    · rw [if_neg hmn] at hs
      exact some.inj hs ▸ h

end InitLoop

namespace GenericTreeSchedule

/-- A new object, before `init`. -/
def new (T : TreeParameters) (topo : Topology) (myEp : ℕ) : GenericTreeSchedule where
  params := T
  topo := topo
  myrank := topo.endpoint2Index myEp
  root := 0
  lstartph := -1
  rstartph := -1
  nphs := 0
  mynphs := 0
  src := 0
  partners := []
  subsizes := []

/-- `init` on an object that may have been initialised before. -/
def reinit (t : GenericTreeSchedule) (root : ℕ) : Option GenericTreeSchedule :=
  let rootrank := t.topo.endpoint2Index root
  let s : InitLoop := {
    nodesLeft := t.topo.size
    curPos := (t.myrank + t.topo.size - rootrank) % t.topo.size
    phase := 0
    partners := t.partners
    subsizes := t.subsizes
    src := t.src
    lstartph := t.lstartph
    rstartph := t.rstartph }
  (s.run t.params t.myrank t.topo.size t.topo.size).map fun s =>
    let lstartph := if t.myrank = rootrank then 0 else s.lstartph
    { t with
      root := rootrank
      lstartph := lstartph
      rstartph := if s.rstartph = -1 then s.phase else s.rstartph
      nphs := s.phase
      mynphs := s.phase - lstartph
      src := s.src
      partners := s.partners
      subsizes := s.subsizes }

/-- The object after `init` with each of the roots. -/
def inits (T : TreeParameters) (topo : Topology) (myEp : ℕ) (roots : List ℕ) : Option GenericTreeSchedule :=
  roots.foldlM reinit (new T topo myEp)

theorem reinit_new (T : TreeParameters) (topo : Topology) (root myEp : ℕ) :
    (new T topo myEp).reinit root = init T topo root myEp := rfl

/-- The queries of two objects have the same answers in all phases. -/
structure SameAnswers (t t' : GenericTreeSchedule) : Prop where
  nphases : t.nphs = t'.nphs
  mynphases : t.mynphs = t'.mynphs
  rListNpes : ∀ p : ℕ, p < t'.nphs → t.getRListNpes p = t'.getRListNpes p
  rList : ∀ p : ℕ, p < t'.nphs → t.getRList p = t'.getRList p ∧ t.getRLens p = t'.getRLens p
  lList : ∀ p : ℕ, p < t'.nphs → t.getLList p = t'.getLList p ∧ t.getLLens p = t'.getLLens p
  srcUnion : t.getSrcUnionTopology = t'.getSrcUnionTopology
  dstUnion : ∀ numEps, t.getDstUnionTopology numEps = t'.getDstUnionTopology numEps

variable {T : TreeParameters} (hT : 0 < T.nports) {topo : Topology} {root e : ℕ} {t f : GenericTreeSchedule}

/-- What `init` with a root leaves of an object that it was called on before. -/
structure Restarted (t f t' : GenericTreeSchedule) : Prop where
  params : t'.params = t.params
  topo_eq : t'.topo = t.topo
  myrank : t'.myrank = t.myrank
  root : t'.root = f.root
  nphs : t'.nphs = f.nphs
  mynphs : t'.mynphs = t'.nphs - t'.lstartph
  partners : t'.partners = t.partners ++ f.partners
  subsizes : t'.subsizes = t.subsizes ++ f.subsizes
  lstartph : t'.lstartph = if f.myrank = f.root then 0 else if t.lstartph = -1 then f.lstartph else t.lstartph
  rstartph : t'.rstartph = if t.rstartph = -1 then f.rstartph else t.rstartph
  src : f.myrank ≠ f.root → f.lstartph ≠ -1 → t'.src = f.src

theorem reinit_restarted (hprm : t.params=T) (htopo : t.topo=topo) (hrk : t.myrank = topo.endpoint2Index e)
    (hf : init T topo root e = some f) : ∃ t', t.reinit root = some t' ∧ Restarted t f t' := by
  obtain ⟨s,hs,rfl⟩ := map_eq_some_iff.mp hf
  subst hprm htopo
  have hsta : InitLoop.Resumes t.partners t.subsizes t.lstartph t.rstartph
      { nodesLeft := t.topo.size, curPos := (t.myrank+t.topo.size-t.topo.endpoint2Index root)%t.topo.size,
        phase := 0, partners := t.partners, subsizes := t.subsizes, src := t.src, lstartph := t.lstartph,
        rstartph := t.rstartph } (start t.topo root e) := by
    refine ⟨rfl,by rw [hrk]; rfl,rfl,(append_nil _).symm,(append_nil _).symm,?_,?_,absurd rfl⟩
    · simp only [start]
      split
      case isTrue h => exact h
      case isFalse => rfl
    · simp only [start]
      split
      case isTrue h => exact h
      case isFalse => rfl
  rw [← hrk] at hs
  obtain ⟨s',hs',hrun⟩ := hsta.run hs
  refine ⟨_,map_eq_some_iff.mpr ⟨s',hs',rfl⟩,?_⟩
  refine ⟨rfl,rfl,rfl,rfl,congrArg Nat.cast hrun.phase,rfl,hrun.partners,hrun.subsizes,?_,?_,?_⟩
  · simp only [hrk,hrun.lstartph]
    by_cases heq : t.topo.endpoint2Index e = t.topo.endpoint2Index root
    · simp only [if_pos heq]
    · simp only [if_neg heq]
  · simp only [hrun.rstartph,hrun.phase]
    by_cases hr : t.rstartph = -1
    · simp only [if_pos hr]
    · simp only [if_neg hr]
  · intro hne hl
    exact hrun.src (by simpa only [if_neg hne] using hl)

def fresh (T : TreeParameters) (topo : Topology) (myEp root : ℕ) : GenericTreeSchedule :=
  (init T topo root myEp).getD (new T topo myEp)

section Fresh

variable (hrt : root ∈ topo) (he : e ∈ topo)

include hT hrt he

theorem init_fresh : init T topo root e = some (fresh T topo e root) := by
  obtain ⟨-,-,t,ht,-⟩ := init_initialised hT hrt he
  rw [fresh,ht,getD_some]

theorem fresh_initialised : Initialised hT topo root e (fresh T topo e root) :=
  initialised_of_init hT hrt he (init_fresh hT hrt he)

theorem fresh_sized : (fresh T topo e root).subsizes.length=(fresh T topo e root).partners.length ∧
    ∀ x ∈ (fresh T topo e root).subsizes, 0<x := by
  obtain ⟨s,hs,t,ht,hsiz,hpar,-⟩ := init_initialised hT hrt he
  have hszd : s.Sized := InitLoop.Sized.run ⟨rfl,fun x hx => absurd hx not_mem_nil⟩ hs
  rw [fresh,ht,getD_some,hsiz,hpar]
  exact hszd

theorem fresh_leaf (h : (fresh T topo e root).partners = []) : (fresh T topo e root).subsizes = [] := by
  have hlng := (fresh_sized hT hrt he).1
  rw [h] at hlng
  exact length_eq_zero_iff.mp hlng

theorem fresh_root (hmn : 1<topo.size) (h0 : place topo root e = 0) :
    0<(fresh T topo e root).partners.length ∧ 0 < degree hT topo root e := by
  have hsub : subtree hT topo root e=topo.size := by rw [subtree,h0,Splitting.size_zero]
  rw [(fresh_initialised hT hrt he).partners,degree,hsub,length_map,splits_of_lt hmn]
  exact ⟨length_pos_of_ne_nil (children_ne_nil hmn),succ_pos _⟩

theorem first_pos (h0 : place topo root e ≠ 0) : 0 < first hT topo root e := by
  rw [first,arrival_of_pos (place_lt hrt he) (pos_of_ne_zero h0)]
  exact succ_pos _

end Fresh

/-- What is left after `init` with several roots. -/
structure After (T : TreeParameters) (topo : Topology) (e : ℕ) (roots : List ℕ) (t : GenericTreeSchedule) : Prop where
  params : t.params = T
  topo_eq : t.topo = topo
  myrank : t.myrank = topo.endpoint2Index e
  partners : t.partners = roots.flatMap fun r => (fresh T topo e r).partners
  subsizes : t.subsizes = roots.flatMap fun r => (fresh T topo e r).subsizes
  rstartph : ∀ r ∈ roots.head?, t.rstartph = (fresh T topo e r).rstartph
  lstartph : (∀ r ∈ roots, place topo r e ≠ 0) → ∀ r ∈ roots.head?, t.lstartph = (fresh T topo e r).lstartph

include hT in
theorem After.reinit (he : e ∈ topo) {roots : List ℕ} (hroo : ∀ r ∈ roots, r ∈ topo) (hrt : root ∈ topo)
    (h : After T topo e roots t) (hnew : roots = [] → t.rstartph = -1 ∧ t.lstartph = -1) :
    ∃ t', t.reinit root = some t' ∧ Restarted t (fresh T topo e root) t' ∧ After T topo e (roots ++ [root]) t' := by
  obtain ⟨t',ht',hre⟩ := reinit_restarted h.params h.topo_eq h.myrank (init_fresh hT hrt he)
  refine ⟨t',ht',hre,hre.params.trans h.params,hre.topo_eq.trans h.topo_eq,hre.myrank.trans h.myrank,?_,?_,?_,?_⟩
  · rw [hre.partners,h.partners,flatMap_append,flatMap_singleton]
  · rw [hre.subsizes,h.subsizes,flatMap_append,flatMap_singleton]
  · intro r hr
    cases roots with
    | nil =>
      obtain rfl := some.inj hr
      rw [hre.rstartph,if_pos (hnew rfl).1]
    | cons r' roots =>
      obtain rfl := some.inj hr
      have hfir := (fresh_initialised hT (hroo r' mem_cons_self) he).rstartph
      rw [hre.rstartph,h.rstartph r' rfl,if_neg (by omega)]
  · intro hnn r hr
    have hne := hnn root (mem_append_right _ (mem_singleton_self _))
    have hnot := mt (fresh_initialised hT hrt he).isRoot.mp hne
    cases roots with
    | nil =>
      obtain rfl := some.inj hr
      rw [hre.lstartph,if_neg hnot,if_pos (hnew rfl).2]
    | cons r' roots =>
      obtain rfl := some.inj hr
      have hr' := hroo r' mem_cons_self
      have hne' := hnn r' mem_cons_self
      have hfir := (fresh_initialised hT hr' he).lstartph
      have hpos := first_pos hT hr' he hne'
      rw [if_neg hne'] at hfir
      rw [hre.lstartph,if_neg hnot,h.lstartph (fun r hr => hnn r (mem_append_left _ hr)) r' rfl,if_neg (by omega)]

include hT in
theorem inits_after (he : e ∈ topo) {roots : List ℕ} (hroo : ∀ r ∈ roots, r ∈ topo) :
    ∃ t, inits T topo e roots = some t ∧ After T topo e roots t ∧
      (roots = [] → t.rstartph = -1 ∧ t.lstartph = -1) := by
  induction roots using List.reverseRecOn with
  | nil => exact ⟨_,rfl,⟨rfl,rfl,rfl,rfl,rfl,fun _ hr => by simp at hr,fun _ _ hr => by simp at hr⟩,fun _ => ⟨rfl,rfl⟩⟩
  | append_singleton roots r ih =>
    have hbef : ∀ r ∈ roots, r ∈ topo := fun r hr => hroo r (mem_append_left _ hr)
    obtain ⟨t,ht,haft,hnew⟩ := ih hbef
    obtain ⟨t',ht',-,haft'⟩ := haft.reinit hT he hbef
      (hroo r (mem_append_right _ (mem_singleton_self r))) hnew
    refine ⟨t',?_,haft',fun h => absurd h (by simp)⟩
    rw [inits,foldlM_append,← inits,ht]
    simp only [foldlM_cons,foldlM_nil,bind_eq_bind,bind_some,ht',Option.pure_def]

section Answers

variable {t' : GenericTreeSchedule}

theorem sameAnswers_of (h : { t with src := t'.src } = t') (hsrc : t'.myrank≠t'.root → t.src=t'.src) :
    SameAnswers t t' := by
  by_cases hrt : t'.myrank=t'.root
  · have hnn : ∀ s : GenericTreeSchedule, s.myrank=s.root → ∀ p, s.getLList p = [] ∧ s.getLLens p = [] :=
      fun s hs p => ⟨if_neg fun hne => hne.1 hs,if_neg fun hne => hne.1 hs⟩
    have hrt' : t.myrank=t.root := by
      rw [← h] at hrt
      exact hrt
    have hlf : ∀ p, t.getLList p = t'.getLList p ∧ t.getLLens p = t'.getLLens p := by
      intro p
      rw [(hnn t hrt' p).1,(hnn t hrt' p).2,(hnn t' hrt p).1,(hnn t' hrt p).2]
      exact ⟨rfl,rfl⟩
    have huni : t.getSrcUnionTopology=t'.getSrcUnionTopology := by
      have hphases : t.phases=t'.phases := by
        rw [← h]
        rfl
      rw [getSrcUnionTopology,getSrcUnionTopology,hphases]
      exact congrArg (fun f => List.flatMap f t'.phases) (funext fun p => (hlf p).1)
    have hdst : ∀ (n : ℕ) (l : List ℤ) (d : List ℕ), t.dstUnion n l d = t'.dstUnion n l d := by
      intro n l d
      induction l generalizing d with
      | nil => rfl
      | cons p l ih =>
        rw [dstUnion,dstUnion,ih]
        rw [← h]
        rfl
    refine ⟨?_,?_,fun p _ => ?_,fun p _ => ?_,fun p _ => hlf p,huni,fun n => ?_⟩
    · rw [← h]
    · rw [← h]
    · rw [← h]
      rfl
    · rw [← h]
      exact ⟨rfl,rfl⟩
    · rw [getDstUnionTopology,getDstUnionTopology,hdst]
      rw [← h]
      rfl
  · obtain rfl : t=t' := by rw [← h,← hsrc hrt]
    exact ⟨rfl,rfl,fun _ _ => rfl,fun _ _ => ⟨rfl,rfl⟩,fun _ _ => ⟨rfl,rfl⟩,rfl,fun _ => rfl⟩

theorem getRListNpes_before {p : ℤ} (h : p<t.rstartph) : t.getRListNpes p = 0 := if_neg (not_le.mpr h)

theorem getRListNpes_last {p : ℤ} (h : t.rstartph≤p) (hp : t.nphs-1≤p) :
    t.getRListNpes p = t.partners.length-(p-t.rstartph)*t.params.nports := by
  rw [getRListNpes,if_pos h,if_neg (not_lt.mpr hp)]

variable (T) in
/-- The earlier roots leave no trace: none of them gave the rank children, the rank is not the root now, and it starts in
the phase in which it started first. -/
def Untouched (topo : Topology) (e : ℕ) (roots : List ℕ) (root : ℕ) : Prop :=
  e ≠ root ∧ (∀ r ∈ roots, (fresh T topo e r).partners = []) ∧
    ∀ r ∈ roots.head?, (fresh T topo e r).lstartph = (fresh T topo e root).lstartph

section Condition

variable (he : e ∈ topo) (hrt : root ∈ topo) {roots : List ℕ} (haft : After T topo e roots t)
  (hre : Restarted t (fresh T topo e root) t')

include hT he hrt haft hre

theorem Restarted.sameAnswers (hnn : roots.flatMap (fun r => (fresh T topo e r).partners) = [])
    (hsiz : roots.flatMap (fun r => (fresh T topo e r).subsizes) = [])
    (hl : t'.lstartph=(fresh T topo e root).lstartph) (hr : t'.rstartph=(fresh T topo e root).rstartph)
    (hsrc : place topo root e ≠ 0 → (fresh T topo e root).lstartph ≠ -1) :
    SameAnswers t' (fresh T topo e root) := by
  have hin := fresh_initialised hT hrt he
  refine sameAnswers_of ?_ fun hne => hre.src hne (hsrc (mt hin.isRoot.mpr hne))
  have hprt := hre.partners
  have hsbs := hre.subsizes
  have hmyn := hre.mynphs
  rw [haft.partners,hnn,nil_append] at hprt
  rw [haft.subsizes,hsiz,nil_append] at hsbs
  rw [hl,hre.nphs,← hin.mynphs] at hmyn
  have hprm := (hre.params.trans haft.params).trans hin.params.symm
  have htopo := (hre.topo_eq.trans haft.topo_eq).trans hin.topo_eq.symm
  have hrk := (hre.myrank.trans haft.myrank).trans hin.myrank.symm
  rw [hprm,htopo,hrk,hre.root,hl,hr,hre.nphs,hmyn,hprt,hsbs]

variable (hroo : ∀ r ∈ roots, r ∈ topo)

include hroo

theorem Restarted.sameAnswers_of_untouched (hne : roots ≠ []) (h : Untouched T topo e roots root) :
    SameAnswers t' (fresh T topo e root) := by
  obtain ⟨hrt',hleaf,hsta⟩ := h
  obtain ⟨r,rest,rfl⟩ := exists_cons_of_ne_nil hne
  have hr := hroo r mem_cons_self
  have hpla := mt (eq_root_iff hrt he).mpr hrt'
  have hmn : 1<topo.size := by
    have := place_lt hrt he
    omega
  have hnor : ∀ r' ∈ r :: rest, place topo r' e≠0 := by
    intro r' hr' h0
    have := (fresh_root hT (hroo r' hr') he hmn h0).1
    rw [hleaf r' hr'] at this
    exact absurd this (lt_irrefl 0)
  have hpos := first_pos hT hr he (hnor r mem_cons_self)
  have hin := fresh_initialised hT hr he
  have hin' := fresh_initialised hT hrt he
  have hl := hin.lstartph
  have hl' := hin'.lstartph
  rw [if_neg (hnor r mem_cons_self)] at hl
  rw [if_neg hpla] at hl'
  have hsm := hsta r rfl
  refine hre.sameAnswers hT he hrt haft ?_ ?_ ?_ ?_ ?_
  · rw [flatMap_eq_nil_iff]
    exact hleaf
  · rw [flatMap_eq_nil_iff]
    exact fun r' hr' => fresh_leaf hT (hroo r' hr') he (hleaf r' hr')
  · rw [hre.lstartph,if_neg (mt hin'.isRoot.mp hpla),haft.lstartph hnor r rfl,hsm,ite_self]
  · rw [hre.rstartph,haft.rstartph r rfl,hin.rstartph,hin'.rstartph,if_neg (by omega)]
    omega
  · intro _
    have := first_pos hT hrt he hpla
    omega

theorem Restarted.sameAnswers_alone (hne : roots ≠ []) (h : topo.size=1) : SameAnswers t' (fresh T topo e root) := by
  obtain ⟨r,rest,rfl⟩ := exists_cons_of_ne_nil hne
  have hpla : ∀ r' ∈ topo, place topo r' e=0 := by
    intro r' hr'
    have := place_lt hr' he
    omega
  have hleaf : ∀ r' ∈ topo, (fresh T topo e r').partners = [] := by
    intro r' hr'
    have hsub : subtree hT topo r' e=1 := by rw [subtree,hpla r' hr',Splitting.size_zero,h]
    rw [(fresh_initialised hT hr' he).partners,hsub,children_of_le le_rfl,map_nil]
  have hfir : ∀ r' ∈ topo, (fresh T topo e r').rstartph=0 := by
    intro r' hr'
    rw [(fresh_initialised hT hr' he).rstartph,first,hpla r' hr',arrival_zero]
    rfl
  have hin := fresh_initialised hT hrt he
  have hr := hroo r mem_cons_self
  refine hre.sameAnswers hT he hrt haft ?_ ?_ ?_ ?_ ?_
  · rw [flatMap_eq_nil_iff]
    exact fun r' hr' => hleaf r' (hroo r' hr')
  · rw [flatMap_eq_nil_iff]
    exact fun r' hr' => fresh_leaf hT (hroo r' hr') he (hleaf r' (hroo r' hr'))
  · rw [hre.lstartph,if_pos (hin.isRoot.mpr (hpla root hrt)),hin.lstartph,if_pos (hpla root hrt)]
  · rw [hre.rstartph,haft.rstartph r rfl,hfir r hr,hfir root hrt]
    rfl
  · exact fun hne => absurd (hpla root hrt) hne

section

variable (hne : roots ≠ []) (hmn : 1 < topo.size) (h : SameAnswers t' (fresh T topo e root))
include hne hmn h

theorem Restarted.not_root : place topo root e ≠ 0 := by
  intro h0
  obtain ⟨r,rest,rfl⟩ := exists_cons_of_ne_nil hne
  have hr := hroo r mem_cons_self
  have hin := fresh_initialised hT hrt he
  have hin' := fresh_initialised hT hr he
  obtain ⟨hlng,hdeg⟩ := fresh_root hT hrt he hmn h0
  have hfir : first hT topo root e=0 := by rw [first,h0,arrival_zero]
  have hnphs := hin.nphs
  have hrst := hin.rstartph
  have hprm := (hre.params.trans haft.params).trans hin.params.symm
  have hpor : 0<(fresh T topo e root).params.nports := by
    rw [hin.params]
    exact hT
  have hr' : t'.rstartph=first hT topo r e := by
    rw [hre.rstartph,haft.rstartph r rfl,hin'.rstartph,if_neg (by omega)]
  by_cases hr0 : place topo r e=0
  · -- the children of the first root are still there
    have hfir' : first hT topo r e=0 := by rw [first,hr0,arrival_zero]
    have hmore := (fresh_root hT hr he hmn hr0).1
    have hcou : t'.partners.length=t.partners.length+(fresh T topo e root).partners.length := by
      rw [hre.partners,length_append]
    have hold : (fresh T topo e r).partners.length≤t.partners.length := by
      rw [haft.partners,flatMap_cons,length_append]
      exact Nat.le_add_right _ _
    have hphs := hre.nphs
    have hla := h.rListNpes (degree hT topo root e-1) (by omega)
    rw [getRListNpes_last (by omega) (by omega),getRListNpes_last (by omega) (by omega),hr',hrst,hprm,hfir,
      hfir'] at hla
    omega
  · -- the rank starts too late
    have hlate := first_pos hT hr he hr0
    have hzr := h.rListNpes 0 (by omega)
    rw [getRListNpes_before (by omega),getRListNpes,hrst,hfir,if_pos le_rfl,cast_zero,sub_self,zero_mul] at hzr
    split at hzr <;> omega

theorem Restarted.untouched : Untouched T topo e roots root := by
  have hpla := hre.not_root hT he hrt haft hroo hne hmn h
  have hin := fresh_initialised hT hrt he
  have hpos := first_pos hT hrt he hpla
  have hl := hin.lstartph
  have hnphs := hin.nphs
  rw [if_neg hpla] at hl
  have hntr := mt hin.isRoot.mp hpla
  -- the phase in which the rank hears from its parent
  have hhea := h.lList (first hT topo root e-1) (by omega)
  have hpha : ((first hT topo root e-1 : ℕ) : ℤ)=(fresh T topo e root).lstartph := by omega
  rw [getLList,getLList,getLLens,getLLens,hpha,if_pos (c := _ ∧ _ = (fresh T topo e root).lstartph) ⟨hntr,rfl⟩,
    if_pos (c := _ ∧ _ = (fresh T topo e root).lstartph) ⟨hntr,rfl⟩] at hhea
  have hsta : t'.myrank≠t'.root ∧ (fresh T topo e root).lstartph=t'.lstartph := by
    by_contra hnot
    rw [if_neg hnot] at hhea
    exact absurd hhea.1 (cons_ne_nil _ _).symm
  rw [if_pos hsta,if_pos hsta] at hhea
  have hsum : t.subsizes.sum=0 := by
    have hsm := (List.cons.inj hhea.2).1
    rw [hre.subsizes,List.sum_append] at hsm
    omega
  have hleaf : ∀ r ∈ roots, (fresh T topo e r).partners = [] := by
    intro r hr
    have hszd := fresh_sized hT (hroo r hr) he
    have hnil : (fresh T topo e r).subsizes = [] := by
      by_contra hso
      obtain ⟨x,hx⟩ := exists_mem_of_ne_nil _ hso
      have hmem : x ∈ t.subsizes := by
        rw [haft.subsizes]
        exact mem_flatMap.mpr ⟨r,hr,hx⟩
      have hle := le_sum_of_mem hmem
      exact (hszd.2 x hx).not_ge (hsum ▸ hle)
    rw [hnil] at hszd
    exact length_eq_zero_iff.mp hszd.1.symm
  refine ⟨mt (eq_root_iff hrt he).mp hpla,hleaf,fun r hr => ?_⟩
  have hnor : ∀ r' ∈ roots, place topo r' e≠0 := by
    intro r' hr' h0
    have := (fresh_root hT (hroo r' hr') he hmn h0).1
    rw [hleaf r' hr'] at this
    exact absurd this (lt_irrefl 0)
  have hrmem := mem_of_mem_head? hr
  have hrl := (fresh_initialised hT (hroo r hrmem) he).lstartph
  have hrpos := first_pos hT (hroo r hrmem) he (hnor r hrmem)
  rw [if_neg (hnor r hrmem)] at hrl
  have hkp := hre.lstartph
  rw [if_neg hntr,haft.lstartph hnor r hr,if_neg (by omega)] at hkp
  exact hkp.symm.trans hsta.2.symm

end

end Condition

include hT in
theorem reinit_same_iff (he : e ∈ topo) {roots : List ℕ} (hroo : ∀ r ∈ roots, r ∈ topo) (hrt : root ∈ topo) :
    (∃ t f, inits T topo e (roots ++ [root]) = some t ∧ init T topo root e = some f ∧ SameAnswers t f) ↔
      roots = [] ∨ topo.size = 1 ∨ Untouched T topo e roots root := by
  obtain ⟨t,ht,haft,hnew⟩ := inits_after hT he hroo
  obtain ⟨t',ht',hre,-⟩ := haft.reinit hT he hroo hrt hnew
  have hini : inits T topo e (roots ++ [root]) = some t' := by
    rw [inits,foldlM_append,← inits,ht]
    simp only [foldlM_cons,foldlM_nil,bind_eq_bind,bind_some,ht',Option.pure_def]
  rw [hini,init_fresh hT hrt he]
  have hbt : (∃ t f, some t' = some t ∧ some (fresh T topo e root) = some f ∧ SameAnswers t f) ↔
      SameAnswers t' (fresh T topo e root) := by
    constructor
    · rintro ⟨_,_,ht,hf,h⟩
      obtain rfl := some.inj ht
      obtain rfl := some.inj hf
      exact h
    · exact fun h => ⟨_,_,rfl,rfl,h⟩
  rw [hbt]
  by_cases hne : roots = []
  · subst hne
    obtain rfl := some.inj ht
    rw [reinit_new,init_fresh hT hrt he] at ht'
    obtain rfl := some.inj ht'
    exact iff_of_true (sameAnswers_of rfl fun _ => rfl) (.inl rfl)
  · rw [or_iff_right hne]
    by_cases hone : topo.size=1
    · exact iff_of_true (hre.sameAnswers_alone hT he hrt haft hroo hne hone) (.inl hone)
    · rw [or_iff_right hone]
      have hmn : 1<topo.size := by
        have := Topology.size_pos hrt
        omega
      exact ⟨hre.untouched hT he hrt haft hroo hne hmn,hre.sameAnswers_of_untouched hT he hrt haft hroo hne⟩

theorem reinit_same_leaf : ∃ t f, inits (knomial 1) ⟨List.range 4, nodup_range⟩ 3 [0, 2] = some t ∧
    init (knomial 1) ⟨List.range 4, nodup_range⟩ 2 3 = some f ∧ SameAnswers t f := by
  have hmem : 3 ∈ (⟨List.range 4,nodup_range⟩ : Topology) := mem_range.mpr (lt_succ_self 3)
  have hpor : 0<(knomial 1).nports := one_pos
  have hroo : ∀ r ∈ [0], r ∈ (⟨List.range 4,nodup_range⟩ : Topology) := by decide
  exact (reinit_same_iff hpor hmem hroo (by decide)).mpr (.inr (.inr ⟨by decide,by decide,by decide⟩))

/-- A rank that was the root once goes on sending. -/
theorem children_stay : ∃ t f, inits (knomial 1) ⟨List.range 2, nodup_range⟩ 0 [0, 1] = some t ∧
    init (knomial 1) ⟨List.range 2, nodup_range⟩ 1 0 = some f ∧ t.getRList 0 = [1] ∧ f.getRList 0 = [] ∧
      ¬ SameAnswers t f := by
  refine ⟨_,_,rfl,rfl,by decide,by decide,fun h => ?_⟩
  exact absurd (h.rList 0 (by decide)).1 (by decide)

end Answers

end GenericTreeSchedule

end PAMI.Schedule
