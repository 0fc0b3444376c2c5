import PAMI.Collsel.CheckpointFile

namespace PAMI.Collsel

open Std PAMI.Math Function Advisor List

variable {P : Platform} {m m' : Measurement} {c : Configuration} {d d' d1 d2 : Advisor} {records : List AlgoRecord}
  {i n : ℕ}

/-- Two runs agree on all that they record. -/
structure Agree (d d' : Advisor) : Prop where
  names : d.names = d'.names
  algo_map : d.algo_map = d'.algo_map
  currAlgoList : d.currAlgoList = d'.currAlgoList
  last_size : d.last_size = d'.last_size
  ppn_map : d.ppn_map = d'.ppn_map

def SameList (n : ℕ) (d d' : Advisor) : Prop := ∀ j < n, d.algo_list j = d'.algo_list j

section Loading

variable {coll_xfer_type : ℕ} {algo_name : Text} {times : Times}

theorem Agree.enter (h : Agree d d') :
    Agree (d.enter coll_xfer_type i algo_name times) (d'.enter coll_xfer_type i algo_name times) where
  names := by simp only [Advisor.enter,h.names]
  algo_map := by simp only [Advisor.enter,h.names,h.algo_map]
  currAlgoList := h.currAlgoList
  last_size := h.last_size
  ppn_map := h.ppn_map

theorem SameList.enter (h : Agree d d') (hli : SameList i d d') :
    SameList (i+1) (d.enter coll_xfer_type i algo_name times) (d'.enter coll_xfer_type i algo_name times) := by
  intro j hj
  simp only [Advisor.enter,h.names]
  by_cases hji : j=i
  · rw [hji,update_self,update_self]
  · rw [update_of_ne hji,update_of_ne hji]
    exact hli j (by omega)

theorem reload_agree (h : Agree d d') (hli : SameList i d d') :
    Agree (d.reload coll_xfer_type i records) (d'.reload coll_xfer_type i records) ∧
      SameList (i+records.length) (d.reload coll_xfer_type i records) (d'.reload coll_xfer_type i records) := by
  induction records generalizing i d d' with
  | nil => exact ⟨h,hli⟩
  | cons r records ih =>
    rw [length_cons,← add_assoc,add_right_comm]
    apply ih
    · exact h.enter
    · exact hli.enter h

theorem reload_files : (d.reload coll_xfer_type i records).files=d.files := by
  induction records generalizing i d with
  | nil => rfl
  | cons r records ih => exact ih

theorem enter_names : (d.enter coll_xfer_type i algo_name times).names coll_xfer_type =
    ((d.names coll_xfer_type).find algo_name).2 :=
  update_self _ _ _

theorem reload_names : (d.reload coll_xfer_type i records).names = update d.names coll_xfer_type
    ((d.names coll_xfer_type).findAll (records.map AlgoRecord.algo_name)).2 := by
  induction records generalizing i d with
  | nil => exact (update_eq_self _ _).symm
  | cons r records ih =>
    rw [reload,ih,enter_names]
    exact update_idem _ _ _

end Loading

section Recording

variable {tempAlgoList : Text}

theorem qsort_lt {p : ℕ} (hp : p ∈ P.qsort ((List.range n).map fun i => (d.algo_list i).times.avg)) : p<n := by
  have hmem := (P.qsort_perm _).mem_iff.mp hp
  rw [length_map,length_range] at hmem
  exact mem_range.mp hmem

theorem sort_algo_list_text (hn : 0<n) : (d.sort_algo_list P n).2 =
    commaList ((P.qsort ((List.range n).map fun i => (d.algo_list i).times.avg)).map fun p => (d.algo_list p).algo_id) := by
  have hlen := (P.qsort_perm ((List.range n).map fun i => (d.algo_list i).times.avg)).length_eq
  rw [length_range,length_map,length_range] at hlen
  rw [sort_algo_list,max_eq_left hn]
  dsimp only
  congr 1
  apply ext_getElem
  · rw [length_map,length_range,length_map,hlen]
  · intro i hi hi'
    rw [length_map,length_range] at hi
    rw [getElem_map,getElem_map,getElem_range,List.getElem?_eq_getElem (hi.trans_eq hlen.symm)]
    rfl

theorem sort_algo_list_agree (hn : 0<n) (h : Agree d d') (hli : SameList n d d') :
    Agree (d.sort_algo_list P n).1 (d'.sort_algo_list P n).1 ∧
      (d.sort_algo_list P n).2=(d'.sort_algo_list P n).2 := by
  have htim : (List.range n).map (fun i => (d.algo_list i).times.avg) =
      (List.range n).map fun i => (d'.algo_list i).times.avg := by
    apply map_congr_left
    intro i hi
    rw [hli i (mem_range.mp hi)]
  refine ⟨⟨h.names,h.algo_map,h.currAlgoList,h.last_size,h.ppn_map⟩,?_⟩
  rw [sort_algo_list_text hn,sort_algo_list_text hn,htim]
  congr 1
  apply map_congr_left
  intro p hp
  rw [hli p (qsort_lt hp)]

theorem Agree.record (h : Agree d d') : Agree (d.record c tempAlgoList) (d'.record c tempAlgoList) := by
  obtain ⟨hnam,hmap,hcur,hsi,hppn⟩ := h
  have hcur' := hcur
  cases hd : d.currAlgoList with
  | none =>
    rw [hd] at hcur'
    simp only [Advisor.record,hd,← hcur',← hppn]
    simp only [ne_eq,not_true_eq_false,if_false]
    exact ⟨hnam,hmap,rfl,rfl,rfl⟩
  | some list =>
    rw [hd] at hcur'
    simp only [Advisor.record,hd,← hcur',← hppn,← hsi]
    split
    · exact ⟨hnam,hmap,rfl,rfl,rfl⟩
    · exact ⟨hnam,hmap,hcur,rfl,hppn⟩

theorem record_files : (d.record c tempAlgoList).files=d.files := by
  cases hd : d.currAlgoList with
  | none | some list =>
    simp only [record,hd]
    split <;> rfl

theorem record_names : (d.record c tempAlgoList).names=d.names := by
  cases hd : d.currAlgoList with
  | none | some list =>
    simp only [record,hd]
    split <;> rfl

theorem conclude_eq_some : d.conclude P c = some d1 ↔
    (d.sort_algo_list P (P.algorithms c).length).2.length<COLLSEL_MAX_ALGO*2 ∧
      (d.sort_algo_list P (P.algorithms c).length).1.record c (d.sort_algo_list P (P.algorithms c).length).2 = d1 :=
  Option.ite_none_right_eq_some.trans (and_congr_right' Option.some_inj)

theorem Agree.conclude (hpos : P.algorithms c ≠ []) (h : Agree d d') (hli : SameList (P.algorithms c).length d d')
    (hcon : d.conclude P c = some d1) : ∃ d1', d'.conclude P c = some d1' ∧ Agree d1 d1' := by
  obtain ⟨hsor,htext⟩ := sort_algo_list_agree (P := P) (length_pos_of_ne_nil hpos) h hli
  obtain ⟨hlen,rfl⟩ := conclude_eq_some.mp hcon
  refine ⟨_,conclude_eq_some.mpr ⟨htext ▸ hlen,rfl⟩,?_⟩
  rw [htext]
  exact hsor.record

theorem conclude_files (hcon : d.conclude P c = some d1) : d1.files=d.files := by
  obtain ⟨-,rfl⟩ := conclude_eq_some.mp hcon
  exact record_files

theorem conclude_names (hcon : d.conclude P c = some d1) : d1.names=d.names := by
  obtain ⟨-,rfl⟩ := conclude_eq_some.mp hcon
  exact record_names

end Recording

section Measured

/-- The records of algorithms none of which is skipped. -/
def measured (m : Measurement) : ℕ → List Algorithm → List AlgoRecord
  | _, [] => []
  | algo, a :: as => ⟨UInt64.ofNat algo, a.name, m.times algo⟩ :: measured m (algo + 1) as

variable {as : List Algorithm} {s : Measuring}

theorem length_measured : (measured m i as).length=as.length := by
  induction as generalizing i with
  | nil => rfl
  | cons a as ih => exact congrArg Nat.succ ih

theorem names_measured : (measured m i as).map AlgoRecord.algo_name = as.map Algorithm.name := by
  induction as generalizing i with
  | nil => rfl
  | cons a as ih => exact congrArg (cons a.name) ih

theorem fits_measured : Fits (measured m 0 (P.algorithms c)) := by
  constructor
  · rw [length_measured]
    exact P.num_algo_le c
  · intro r hr
    have hmem := mem_map_of_mem (f := AlgoRecord.algo_name) hr
    rw [names_measured] at hmem
    obtain ⟨a,ha,heq⟩ := mem_map.mp hmem
    rw [← heq]
    exact P.name_length_lt c a ha

theorem loop_measured (has : ∀ a ∈ as, ¬a.skipped c.message_size) (hs : s.act_algo_num=i) :
    (s.loop c m i as).advisor = s.advisor.reload c.collective i (measured m i as) ∧
      (s.loop c m i as).act_algo_num=i+as.length ∧
      (List.range (i+as.length)).map (s.loop c m i as).algo_record =
        (List.range i).map s.algo_record ++ measured m i as := by
  induction as generalizing i s with
  | nil => exact ⟨rfl,hs,(append_nil _).symm⟩
  | cons a as ih =>
    have hrou : s.algorithm c m i a = ⟨s.advisor.enter c.collective i a.name (m.times i),
        update s.algo_record i ⟨UInt64.ofNat i,a.name,m.times i⟩,i+1⟩ := by
      rw [Measuring.algorithm,if_neg (has a mem_cons_self),hs]
    have hnew : (List.range (i+1)).map (update s.algo_record i ⟨UInt64.ofNat i,a.name,m.times i⟩) =
        (List.range i).map s.algo_record ++ [⟨UInt64.ofNat i,a.name,m.times i⟩] := by
      rw [range_succ,map_append,map_singleton,update_self]
      congr 1
      apply map_congr_left
      intro j hj
      exact update_of_ne (Nat.ne_of_lt (mem_range.mp hj)) _ _
    obtain ⟨hadv,hnum,hrec⟩ := ih (fun a ha => has a (mem_cons_of_mem _ ha))
      (congrArg Measuring.act_algo_num hrou)
    rw [Measuring.loop,length_cons,← Nat.add_assoc,Nat.add_right_comm]
    refine ⟨?_,hnum,?_⟩
    · rw [hadv,hrou]
      rfl
    · rw [hrec,hrou,hnew,append_assoc]
      rfl

end Measured

section Steps

/-- The configuration has an algorithm, and none of its algorithms is skipped. -/
structure Complete (P : Platform) (c : Configuration) : Prop where
  ne_nil : P.algorithms c ≠ []
  measured : ∀ a ∈ P.algorithms c, ¬a.skipped c.message_size

def Written (P : Platform) (files : Configuration → Option Text) : Prop :=
  ∀ c file, files c = some file → file_check (some file) = .FILE_OK →
    ∃ m d, (measure P c m d).files c = some file

/-- An accepted file with some records. -/
structure Holds (files : Configuration → Option Text) (c : Configuration) (records : List AlgoRecord) (file : Text) : Prop where
  file_eq : files c = some file
  accepted : file_check (some file) = .FILE_OK
  read : read_file.run' file = some records

def Keeps (files files' : Configuration → Option Text) : Prop :=
  ∀ c file, files c = some file → file_check (some file) = .FILE_OK → files' c = some file

theorem Keeps.trans {files files' files'' : Configuration → Option Text} (h : Keeps files files')
    (h' : Keeps files' files'') : Keeps files files'' :=
  fun c file hfile hok => h' c file (h c file hfile hok) hok

theorem measure_complete (hc : Complete P c) : d.measure P c m =
    { d.reload c.collective 0 (measured m 0 (P.algorithms c)) with
      files := update d.files c (some (file_write (measured m 0 (P.algorithms c)))) } := by
  obtain ⟨hadv,hnum,hrec⟩ := loop_measured (m := m) (i := 0) hc.measured
    (s := ⟨d,fun i => ⟨(m.uninitialised i).1,[],(m.uninitialised i).2⟩,0⟩) rfl
  rw [zero_add] at hnum hrec
  rw [Advisor.measure]
  simp only [hadv,hnum,hrec,reload_files]
  rfl

/-- The records are those of the algorithms of the configuration, in order. -/
def Lists (P : Platform) (c : Configuration) (records : List AlgoRecord) : Prop :=
  records.map AlgoRecord.algo_name = (P.algorithms c).map Algorithm.name

theorem Lists.length_eq (h : Lists P c records) : records.length=(P.algorithms c).length := by
  rw [← length_map (f := AlgoRecord.algo_name),h,length_map]

theorem Lists.names (h : Lists P c records) :
    (d.reload c.collective 0 records).names = update d.names c.collective (P.ids c d.names).2 := by
  rw [reload_names,Platform.ids,h]

theorem message_of_holds {file : Text} (h : Holds d.files c records file) :
    d.message P c m = (d.reload c.collective 0 records).conclude P c := by
  rw [message,h.file_eq]
  simp only [h.accepted,if_true,h.read,Option.bind_some]

/-- A message size reads the records of its configuration, or writes them. -/
theorem message_eq (hc : Complete P c) (hw : Written P d.files) : ∃ records file files,
    d.message P c m = conclude P c { d.reload c.collective 0 records with files } ∧ Lists P c records ∧
      Holds files c records file ∧ Written P files ∧ Keeps d.files files := by
  have hmea : file_check (d.files c) ≠ .FILE_OK → d.message P c m = (d.measure P c m).conclude P c := by
    intro hbad
    rw [message]
    cases hfile : d.files c with
    | none => rfl
    | some file =>
      rw [hfile] at hbad
      simp only [if_neg hbad]
  by_cases hok : file_check (d.files c) = .FILE_OK
  case pos =>
    cases hfile : d.files c with
    | none =>
      rw [hfile] at hok
      contradiction
    | some file =>
      rw [hfile] at hok
      obtain ⟨m0,d0,hwri⟩ := hw c file hfile hok
      rw [measure_complete hc] at hwri
      have heq : file_write (measured m0 0 (P.algorithms c))=file :=
        Option.some.inj ((update_self c _ d0.files).symm.trans hwri)
      have hhol : Holds d.files c (measured m0 0 (P.algorithms c)) file :=
        ⟨hfile,hok,heq ▸ read_file_file_write fits_measured⟩
      refine ⟨_,file,d.files,?_,names_measured,hhol,hw,fun _ _ hfile _ => hfile⟩
      rw [message_of_holds hhol,← reload_files]
  case neg =>
    refine ⟨measured m 0 (P.algorithms c),file_write (measured m 0 (P.algorithms c)),
      update d.files c (some (file_write (measured m 0 (P.algorithms c)))),?_,names_measured,?_,?_,?_⟩
    · rw [hmea hok,measure_complete hc]
    · exact ⟨update_self _ _ _,file_check_file_write fits_measured,read_file_file_write fits_measured⟩
    · intro c' file hfile hok'
      by_cases heq : c'=c
      · subst heq
        refine ⟨m,d,?_⟩
        rw [← hfile,measure_complete hc]
      · rw [update_of_ne heq] at hfile
        exact hw c' file hfile hok'
    · intro c' file hfile hok'
      by_cases heq : c'=c
      · rw [heq] at hfile
        rw [hfile] at hok
        exact absurd hok' hok
      · rw [update_of_ne heq]
        exact hfile

theorem step_messages_done {ppn geo_size coll_xfer_type : ℕ} {list : Text} (h : d.currAlgoList = some list) :
    d.step P m (.messages_done ppn geo_size coll_xfer_type) =
      some { d with ppn_map := assign d.ppn_map ppn geo_size coll_xfer_type d.last_size list } := by
  simp only [step,h]

theorem step_spec {e : Event} (hc : ∀ c, e = .message c → Complete P c) (hw : Written P d.files)
    (hsp : d.step P m e = some d1) : d1.names = e.names P d.names ∧ Written P d1.files ∧ Keeps d.files d1.files ∧
      ∀ d' m', Agree d d' → (∀ c records file, e = .message c → Holds d1.files c records file → d'.files c = some file) →
        ∃ d1', d'.step P m' e = some d1' ∧ Agree d1 d1' ∧ d1'.files=d'.files := by
  cases e with
  | procs_per_node ppn | geometry ppn geo_size =>
    obtain rfl := Option.some.inj hsp
    refine ⟨rfl,hw,fun _ _ hfile _ => hfile,?_⟩
    intro d' m' h _
    exact ⟨_,rfl,⟨h.names,h.algo_map,h.currAlgoList,h.last_size,by simp only [h.ppn_map]⟩,rfl⟩
  | collective ppn geo_size coll_xfer_type =>
    obtain rfl := Option.some.inj hsp
    refine ⟨rfl,hw,fun _ _ hfile _ => hfile,?_⟩
    intro d' m' h _
    exact ⟨_,rfl,⟨h.names,h.algo_map,rfl,h.last_size,by simp only [h.ppn_map]⟩,rfl⟩
  | message c =>
    obtain ⟨records,file,files,heq,hlis,hhol,hw1,hkee⟩ := message_eq (m := m) (hc c rfl) hw
    rw [step,heq] at hsp
    have hfil := conclude_files hsp
    refine ⟨(conclude_names hsp).trans hlis.names,hfil ▸ hw1,hfil ▸ hkee,?_⟩
    intro d' m' h hfile
    have hhol' : Holds d'.files c records file :=
      ⟨hfile c records file rfl (hfil ▸ hhol),hhol.accepted,hhol.read⟩
    obtain ⟨hload,hli⟩ : Agree (d.reload c.collective 0 records) (d'.reload c.collective 0 records) ∧
        SameList (0+records.length) (d.reload c.collective 0 records) (d'.reload c.collective 0 records) :=
      reload_agree h fun j hj => absurd hj (Nat.not_lt_zero j)
    rw [zero_add,hlis.length_eq] at hli
    have hload' : Agree { d.reload c.collective 0 records with files } (d'.reload c.collective 0 records) :=
      ⟨hload.names,hload.algo_map,hload.currAlgoList,hload.last_size,hload.ppn_map⟩
    obtain ⟨d1',hcon,hagr⟩ := hload'.conclude (hc c rfl).ne_nil hli hsp
    refine ⟨d1',?_,hagr,(conclude_files hcon).trans reload_files⟩
    rw [step,message_of_holds hhol',hcon]
  | messages_done ppn geo_size coll_xfer_type =>
    cases hcur : d.currAlgoList with
    | none =>
      rw [step,hcur] at hsp
      obtain rfl := Option.some.inj hsp
      refine ⟨rfl,hw,fun _ _ hfile _ => hfile,?_⟩
      intro d' m' h _
      exact ⟨d',by rw [step,← h.currAlgoList,hcur],h,rfl⟩
    | some list =>
      rw [step_messages_done hcur] at hsp
      obtain rfl := Option.some.inj hsp
      refine ⟨rfl,hw,fun _ _ hfile _ => hfile,?_⟩
      intro d' m' h _
      refine ⟨_,step_messages_done (h.currAlgoList.symm.trans hcur),?_,rfl⟩
      exact ⟨h.names,h.algo_map,h.currAlgoList,h.last_size,by simp only [h.ppn_map,h.last_size]⟩

end Steps

end PAMI.Collsel
