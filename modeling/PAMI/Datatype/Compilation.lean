import PAMI.Datatype.CompleteLoop

namespace PAMI.Datatype

open TypeCode List Option

open PAMI.Math (Layout)
open Stack

section Build

variable (fresh : ℕ → Memory) (heap : Word → TypeCode)

theorem add_of_exec {t : TypeCode} {st st' : Stack} (h : Refines t st) {c : AddCall}
    (hsub : ∀ sub stride reps, c = .typed sub stride reps → (heap sub).completed=true)
    (hst : c.exec Stack.ops heap st = some st') : ∃ v, t.add fresh heap c = some v := by
  have hex (u : TypeCode) (hu : Refines u st) :
      ∃ v, c.exec (ops fresh) heap u = some v := by
    have ho := exec_outcome fresh heap hu c
    rw [hst] at ho
    cases hv : c.exec (ops fresh) heap u with
    | none => rw [hv] at ho; cases ho
    | some v => exact ⟨v,rfl⟩
  have hprim (p : BitVec 6) : Refines (t.setPrimitive p) st := (Refines.setPrimitive_iff p).mpr h
  simp only [add,h.incomplete,Bool.false_eq_true,if_false]
  cases c with
  | shift s => exact hex t h
  | simple bytes stride reps =>
    by_cases hz : bytes=0
    · simp only [if_pos hz]
      exact hex t h
    · simp only [if_neg hz]
      exact hex _ (hprim _)
  | typed sub stride reps =>
    simp only [hsub sub stride reps rfl,if_true]
    by_cases hp : t.getPrimitive=primitiveUndefined
    · obtain ⟨v,hv⟩ := hex _ (hprim (heap sub).getPrimitive)
      rw [if_pos hp,hv]
      exact ⟨_,rfl⟩
    · obtain ⟨v,hv⟩ := hex t h
      rw [if_neg hp,hv]
      exact ⟨_,rfl⟩

theorem build_refines {calls : List AddCall} {st : Stack} (hlnk : LinksSurvive fresh heap calls)
    (hsub : ∀ sub, Uses calls sub → (heap sub).completed=true)
    (hrun : Stack.run heap calls = some st) :
    ∃ t, build fresh heap calls = some t ∧ Refines t st := by
  have hpre (pre : List AddCall) (hp : pre <+: calls) (st : Stack)
      (hr : Stack.run heap pre = some st) :
      ∃ t, build fresh heap pre = some t ∧ Refines t st := by
    induction pre using List.reverseRecOn generalizing st with
    | nil =>
      obtain rfl : []=st := by simpa [Stack.run] using hr
      exact ⟨_,rfl,Refines.init fresh⟩
    | append_singleton pre c ih =>
      have hr' := hr
      rw [run_concat] at hr'
      obtain ⟨st0,hst0,hex⟩ := bind_eq_some_iff.mp hr'
      obtain ⟨t0,ht0,href0⟩ := ih ((prefix_append pre [c]).trans hp) st0 hst0
      have hmem : c ∈ calls := hp.subset (by simp)
      obtain ⟨t,hadd⟩ := add_of_exec fresh heap href0
        (fun sub stride reps hc => hsub sub ⟨stride,reps,hc ▸ hmem⟩) hex
      have hb : build fresh heap (pre ++ [c]) = some t := by
        rw [build_concat,ht0]
        exact hadd
      obtain ⟨st1,hst1,href⟩ := refines_of_linksSurvive fresh heap hlnk hp hb
      rw [hr] at hst1
      obtain rfl := some.inj hst1
      exact ⟨t,hb,href⟩
  exact hpre calls (prefix_refl _) st hrun

end Build

section Layouts

variable {κ : Word → Code}

theorem ofInstrs_append_layout (is js : List Instr) :
    (ofInstrs κ (is ++ js)).layout=(ofInstrs κ is).layout*(ofInstrs κ js).layout := by
  induction is with
  | nil => rw [nil_append,ofInstrs,Code.layout_done,one_mul]
  | cons i is ih =>
    cases i with
    | copy c => rw [cons_append,ofInstrs,ofInstrs,Code.layout_copy,Code.layout_copy,ih,mul_assoc]
    | call c => rw [cons_append,ofInstrs,ofInstrs,Code.layout_call,Code.layout_call,ih,mul_assoc]
    | shift s => rw [cons_append,ofInstrs,ofInstrs,Code.layout_shift,Code.layout_shift,ih,mul_assoc]

theorem ofInstrs_singleton_layout (i : Instr) :
    (ofInstrs κ [i]).layout = i.meaning (fun p => (κ p).layout) := by
  cases i with
  | copy c => rw [Instr.meaning_copy,ofInstrs,Code.layout_copy,ofInstrs,Code.layout_done,mul_one]
  | call c => rw [Instr.meaning_call,ofInstrs,Code.layout_call,ofInstrs,Code.layout_done,mul_one]
  | shift s => rw [Instr.meaning,ofInstrs,Code.layout_shift,ofInstrs,Code.layout_done,mul_one]

theorem ofInstrs_layout (st : Stack) :
    (ofInstrs κ st.reverse).layout = Stack.meaning (fun p => (κ p).layout) st := by
  induction st with
  | nil => rfl
  | cons i st ih => rw [reverse_cons,ofInstrs_append_layout,ih,ofInstrs_singleton_layout,meaning_cons]

theorem instrBytes_add_subBytes (heap : Word → TypeCode) (is : List Instr) :
    instrBytes is+subBytes heap is = (is.map (Instr.weight heap)).sum := by
  induction is with
  | nil => rfl
  | cons i is ih =>
    have hb : instrBytes (i :: is) = i.size+instrBytes is := by simp [instrBytes]
    rw [hb,map_cons,sum_cons,← ih]
    cases i with
    | copy c =>
      show (Instr.copy c).size+instrBytes is+subBytes heap is =
        (Instr.copy c).size+(instrBytes is+subBytes heap is)
      omega
    | call c =>
      rw [subBytes,Instr.weight,show (Instr.call c).size=32 from rfl]
      omega
    | shift s =>
      show (Instr.shift s).size+instrBytes is+subBytes heap is =
        (Instr.shift s).size+(instrBytes is+subBytes heap is)
      omega

theorem codeSize_add_subBytes (heap : Word → TypeCode) (st : Stack) :
    codeSize st+subBytes heap st.reverse = 64+Stack.weight heap st := by
  have h := instrBytes_add_subBytes heap st.reverse
  rw [map_reverse,sum_reverse] at h
  rw [instrBytes_reverse,Stack.weight,← h,Nat.add_assoc]

theorem naive_congr {σ σ' : Word → Layout Word Word} {calls : List AddCall}
    (h : ∀ sub, Uses calls sub → σ sub = σ' sub) : naive σ calls = naive σ' calls := by
  rw [naive,naive]
  congr 1
  apply map_congr_left
  intro c hc
  cases c with
  | shift s | simple bytes stride reps => rfl
  | typed sub stride reps => rw [AddCall.meaning,AddCall.meaning,h sub ⟨stride,reps,hc⟩]

end Layouts

section Compile

/-- Builds a type with a sequence of calls and completes it. -/
def TypeCode.compile (fresh : ℕ → Memory) (heap : Word → TypeCode) (calls : List AddCall) :
    Option TypeCode :=
  (build fresh heap calls).bind (complete fresh heap)

theorem compile_represents (fresh : ℕ → Memory) (heap : Word → TypeCode) (κ : Word → Code)
    {calls : List AddCall} (hsub : ∀ sub, Uses calls sub → Represents (heap sub) (κ sub))
    (hlnk : LinksSurvive fresh heap calls) (hcd : 72+callsWeight heap calls < 2^64) :
    ∃ u c, compile fresh heap calls = some u ∧ Represents u c ∧
      (c.layout = naive (fun p => (κ p).layout) calls ↔ MergesFit heap (fun p => (κ p).layout) calls) := by
  obtain ⟨st,hrun,hwf,hwt,hm⟩ := run_meaning heap κ calls hsub
  obtain ⟨t,ht,href⟩ := build_refines fresh heap hlnk (fun sub hu => (hsub sub hu).completed) hrun
  have hwf' : Stack.WF (fun p => Represents (heap p) (κ p)) st := by
    intro i hi
    have h := hwf i hi
    cases i with
    | copy c => exact h
    | call c => exact ⟨h.1,hsub _ h.2⟩
    | shift s => trivial
  have hsi := codeSize_add_subBytes heap st
  have hnil : Stack.weight heap []=0 := rfl
  obtain ⟨u,hu,hrep⟩ := complete_represents fresh href hwf' (by omega)
  refine ⟨u,ofInstrs κ st.reverse,?_,hrep,?_⟩
  · rw [compile,ht]
    exact hu
  · have hone : Stack.meaning (fun p => (κ p).layout) []=1 := rfl
    rw [hone,one_mul] at hm
    rw [ofInstrs_layout,hm.iff]

/-- The types the rewrites compile faithfully, and their naive layouts: built from such types by
a run that loses no link and whose merges fit into words, the code being addressed without wrapping. -/
inductive Compiled : TypeCode → Layout Word Word → Prop
  | mk (fresh : ℕ → Memory) (heap : Word → TypeCode) (σ : Word → Layout Word Word)
      (calls : List AddCall) (u : TypeCode) (hsub : ∀ sub, Uses calls sub → Compiled (heap sub) (σ sub))
      (hlnk : LinksSurvive fresh heap calls) (hfit : MergesFit heap σ calls)
      (hcd : 72 + callsWeight heap calls < 2^64)
      (hu : compile fresh heap calls = some u) : Compiled u (naive σ calls)

theorem typedFits_congr {heap : Word → TypeCode} {σ σ' : Word → Layout Word Word} {sub : Word}
    (h : σ sub = σ' sub) (fuel : ℕ) (st : Stack) (stride reps : Word) :
    typedFits heap σ fuel st sub stride reps = typedFits heap σ' fuel st sub stride reps := by
  induction fuel generalizing st reps with
  | zero => rfl
  | succ fuel ih => simp only [typedFits,ih,h]

theorem MergesFit.congr {heap : Word → TypeCode} {σ σ' : Word → Layout Word Word} {calls : List AddCall}
    (h : ∀ sub, Uses calls sub → σ sub = σ' sub) (hfit : MergesFit heap σ calls) : MergesFit heap σ' calls := by
  intro pre c hpre st hst
  have hc := hfit pre c hpre st hst
  cases c with
  | typed sub stride reps =>
    rw [AddCall.fits,typedFits_congr (h sub ⟨stride,reps,hpre.subset (by simp)⟩)] at hc
    exact hc
  | _ => exact hc

theorem exists_codes {heap : Word → TypeCode} {σ : Word → Layout Word Word}
    {calls : List AddCall}
    (h : ∀ sub, Uses calls sub → ∃ c, Represents (heap sub) c ∧ c.layout = σ sub) :
    ∃ κ : Word → Code, (∀ sub, Uses calls sub → Represents (heap sub) (κ sub)) ∧
      naive (fun p => (κ p).layout) calls = naive σ calls ∧
      (MergesFit heap (fun p => (κ p).layout) calls ↔ MergesFit heap σ calls) := by
  choose! κ hκ using h
  have heq : ∀ sub, Uses calls sub → (κ sub).layout = σ sub := fun sub hu => (hκ sub hu).2
  exact ⟨κ,fun sub hu => (hκ sub hu).1,naive_congr heq,
    .congr heq,.congr fun sub hu => (heq sub hu).symm⟩

theorem Compiled.represents {t : TypeCode} {x : Layout Word Word} (h : Compiled t x) :
    ∃ c, Represents t c ∧ c.layout=x := by
  induction h with
  | mk fresh heap σ calls u hsub hlnk hfit hcd hu ih =>
    obtain ⟨κ,hκ,hnai,hiff⟩ := exists_codes ih
    obtain ⟨u',c,hu',hrep,hlay⟩ := compile_represents fresh heap κ hκ hlnk hcd
    rw [hu] at hu'
    obtain rfl := some.inj hu'
    rw [hnai,hiff] at hlay
    exact ⟨c,hrep,hlay.mpr hfit⟩

/-- In every run that loses no link, on sub-types compiled so and nested to any depth, one pass over the completed code visits
the cells of the naive layout in its order and moves the origin as far, if and only if no sum to
which the rewrites merge instructions exceeds a word. -/
theorem compile_preserves_meaning (fresh : ℕ → Memory) (heap : Word → TypeCode)
    (σ : Word → Layout Word Word) (calls : List AddCall)
    (hsub : ∀ sub, Uses calls sub → Compiled (heap sub) (σ sub))
    (hlnk : LinksSurvive fresh heap calls) (hcd : 72 + callsWeight heap calls < 2^64) :
    (∃ u, compile fresh heap calls = some u ∧
      ∃ n, ∀ fuel, n ≤ fuel → pass u.code fuel 64 = some (naive σ calls)) ↔ MergesFit heap σ calls := by
  obtain ⟨κ,hκ,hnai,hiff⟩ := exists_codes (fun sub hu => (hsub sub hu).represents)
  obtain ⟨u,c,hu,hrep,hlay⟩ := compile_represents fresh heap κ hκ hlnk hcd
  rw [hnai,hiff] at hlay
  obtain ⟨n,hn⟩ := pass_eq_layout hrep.code
  rw [← hlay]
  constructor
  · rintro ⟨u',hu',n',hn'⟩
    obtain rfl := some.inj (hu.symm.trans hu')
    exact some.inj ((hn _ (le_max_left n n')).symm.trans (hn' _ (le_max_right n n')))
  · intro he
    rw [← he]
    exact ⟨u,hu,n,hn⟩

/-- Two blocks of four bytes, as a type and as the calls that build it. -/
def twoBlocks : List AddCall := [.simple 4 8 2]

def twoBlocksType : TypeCode := (compile clearedStorage noSubTypes twoBlocks).getD (init clearedStorage)

/-- Three copies of that type, too far apart to be inlined. -/
def threePairs : List AddCall := [.typed 0 100 3]

theorem linksSurvive_singleton {fresh : ℕ → Memory} {heap : Word → TypeCode} {c : AddCall}
    {i : Instr} (hrun : Stack.run heap [c] = some [i]) : LinksSurvive fresh heap [c] := by
  intro pre c' hpre t v st ht _ hst
  have hpc : pre = [] ∧ c'=c := by
    rcases pre with _ | ⟨b,pre⟩
    · exact ⟨rfl,by simpa using hpre⟩
    · have hlen := hpre.length_le
      simp at hlen
  obtain ⟨rfl,rfl⟩ := hpc
  have htin : init fresh=t := by simpa [build] using ht
  rw [nil_append,hrun] at hst
  obtain rfl := some.inj hst
  intro hgrow
  have hb := (Refines.init fresh).buffer
  have hi := i.size_bounds
  rw [htin] at hb
  simp only [codeSize] at hgrow
  omega

theorem mergesFit_singleton {heap : Word → TypeCode} {σ : Word → Layout Word Word} {c : AddCall}
    (h : c.fits heap σ [] = true) : MergesFit heap σ [c] :=
  (MergesFit.concat heap (show Stack.run heap [] = some [] from rfl)).mpr ⟨fun pre c hpre => by simpa using hpre.length_le,h⟩

theorem twoBlocksType_eq :
    compile clearedStorage noSubTypes twoBlocks = some twoBlocksType := by
  have hso : (compile clearedStorage noSubTypes twoBlocks).isSome=true := by decide
  obtain ⟨u,hu⟩ := isSome_iff_exists.mp hso
  rw [twoBlocksType,hu,getD_some]

theorem twoBlocksType_compiled : Compiled twoBlocksType (naive (fun _ => 1) twoBlocks) := by
  refine .mk clearedStorage noSubTypes (fun _ => 1) twoBlocks twoBlocksType ?_ ?_ ?_ ?_ ?_
  · rintro sub ⟨stride,reps,h⟩
    simp [twoBlocks] at h
  · exact linksSurvive_singleton (i := .copy ⟨4,8,2⟩) (by decide)
  · exact mergesFit_singleton (by decide)
  · decide
  · exact twoBlocksType_eq

theorem threePairs_preserved :
    ∃ u, compile clearedStorage (fun _ => twoBlocksType) threePairs = some u ∧
      ∃ n, ∀ fuel, n ≤ fuel → pass u.code fuel 64 = some (naive (fun _ => naive (fun _ => 1) twoBlocks) threePairs) :=
  (compile_preserves_meaning clearedStorage (fun _ => twoBlocksType)
    (fun _ => naive (fun _ => 1) twoBlocks) threePairs (fun _ _ => twoBlocksType_compiled)
    (linksSurvive_singleton (i := .call ⟨0,100,3⟩) (by decide)) (by decide)).mpr
    (mergesFit_singleton (by decide))

/-- Four blocks of a quarter of the address space each, in descending order. -/
def wholeSpace : List AddCall := [.simple 0x4000000000000000#64 0xc000000000000000#64 4]

def wholeSpaceType : TypeCode := (compile clearedStorage noSubTypes wholeSpace).getD (init clearedStorage)

def wholeSpaceCode : Code := .copy ⟨0x4000000000000000#64, 0xc000000000000000#64, 4⟩ .done

theorem wholeSpaceType_represents : Represents wholeSpaceType wholeSpaceCode := by
  have hlnk : LinksSurvive clearedStorage noSubTypes wholeSpace :=
    linksSurvive_singleton (i := .copy ⟨0x4000000000000000#64,0xc000000000000000#64,4⟩) (by decide)
  obtain ⟨t,c,ht,hrep,-⟩ := compile_represents clearedStorage noSubTypes (fun _ => .done)
    (by rintro sub ⟨stride,reps,h⟩; simp [wholeSpace] at h) hlnk (by decide)
  have heq : wholeSpaceType=t := by rw [wholeSpaceType,ht,getD_some]
  rw [← heq] at hrep
  have hop : opcodeOf (wholeSpaceType.code 64)=Opcode.COPY.code := by decide
  have hend : opcodeOf (wholeSpaceType.code 96)=Opcode.END.code := by decide
  have hcopy : wholeSpaceType.singleCopy = ⟨0x4000000000000000#64,0xc000000000000000#64,4⟩ := by decide
  have hcd := hrep.code
  cases c with
  | copy cp k =>
    obtain ⟨-,⟨hb,hs,hr⟩,-,hk⟩ := hcd
    have hcp : cp=wholeSpaceType.singleCopy := by
      rw [singleCopy,show wholeSpaceType.code 72=cp.bytes from hb,
        show wholeSpaceType.code 80=cp.stride from hs,
        show wholeSpaceType.code 88=cp.reps from hr]
    cases k with
    | done =>
      rw [hcp,hcopy] at hrep
      exact hrep
    | copy | shift | call => exact absurd (hk.1.symm.trans hend) (by decide)
  | done | shift | call => exact absurd (hcd.1.symm.trans hop) (by decide)

/-- Storage that is clear but for one word an earlier owner left there. -/
def staleStorage : ℕ → Memory := fun _ off => if off = 176 then opWord 0 Opcode.SHIFT.code else 0

/-- The first of the two last shifts grows the buffer, the second one pops behind it. -/
def growingShifts : List AddCall := [.simple 1 2 2, .shift 3, .simple 1 2 2, .simple 1 3 2, .shift 4, .shift 5]

/-- The lost link makes a rewrite pop half a copy: its stride and its repetitions are
overwritten, and the pass visits fifteen cells instead of six. -/
theorem compile_growingShifts_differs :
    ¬ ∃ u, compile staleStorage noSubTypes growingShifts = some u ∧
      ∃ n, ∀ fuel, n ≤ fuel → pass u.code fuel 64 = some (naive (fun _ => 1) growingShifts) := by
  rintro ⟨u,hu,n,hn⟩
  have hcel : (compile staleStorage noSubTypes growingShifts).map
      (fun u => (pass u.code 10 64).map (fun x => x.items.length)) = some (some 15) := by decide
  rw [hu,map_some,Option.some.injEq] at hcel
  obtain ⟨x,hx,hlen⟩ := map_eq_some_iff.mp hcel
  have hx' := pass_of_le hx (le_max_right n 10)
  rw [hn _ (le_max_left n 10)] at hx'
  obtain rfl := some.inj hx'
  exact absurd hlen (by decide)

end Compile

end PAMI.Datatype
