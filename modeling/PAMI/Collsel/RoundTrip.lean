import PAMI.Collsel.Lookup

namespace PAMI.Collsel

open Std PAMI.Math Function XmlNode CollselData List Option Nat

section Numbers

variable {n : ℕ}

theorem number_eq (hn : n<10^15) : number n = Nat.toDigits 10 n :=
  take_of_length_le ((length_toDigits_le_iff (by decide) (by decide)).mpr hn)

theorem strtoul_number (hn : n<10^15) : strtoul (number n) = some n := by
  have hdig : (Nat.toDigits 10 n).all Char.isDigit=true := by
    rw [List.all_eq_true]
    intro c hc
    exact isDigit_of_mem_toDigits (by decide) (by decide) hc
  rw [strtoul,number_eq hn,if_pos ⟨toDigits_ne_nil,hdig⟩,ofDigitChars_ten_toDigits,Nat.min_eq_left (by omega)]

theorem toUnsigned_number (hn : n<2^32) : toUnsigned (number n) = some n := by
  rw [toUnsigned,strtoul_number (by omega),map_some,mod_eq_of_lt hn]

theorem toCollective_number (hn : n<PAMI_XFER_COUNT) : toCollective (number n) = some n := by
  have hlt : n<22 := hn
  rw [toCollective,toUnsigned_number (by omega),filter_some,if_pos (decide_eq_true hn)]

structure IsAlgoList (ids : List ℕ) : Prop where
  ne_nil : ids ≠ []
  length_le : ids.length ≤ 255
  lt : ∀ id ∈ ids, id < 256

theorem foldl_digit (cs : List Char) (hcs : ∀ c ∈ cs, c.isDigit=true) {v w : ℕ} (hvw : v%256=w%256) :
    cs.foldl digit v%256 = cs.foldl (fun v c => 10*v+(c.toNat - '0'.toNat)) w%256 := by
  induction cs generalizing v w with
  | nil => exact hvw
  | cons c cs ih =>
    apply ih
    · exact fun c' hc' => hcs c' (mem_cons_of_mem c hc')
    · have hc : 48 ≤ c.toNat := (Char.isDigit_iff_toNat.mp (hcs c mem_cons_self)).1
      change (10*v+c.toNat+256-48)%256%256=(10*w+(c.toNat-48))%256
      omega

theorem to_numeric_commaList {ids : List ℕ} (h : IsAlgoList ids) :
    to_numeric (((commaList ids).length+1)/2+1) (commaList ids) = some (ids.length :: ids) := by
  have hread : commaValues digit 0 (commaList ids)=ids := by
    apply commaValues_commaList h.ne_nil
    intro id hid
    have hdig := foldl_digit (Nat.toDigits 10 id)
      (fun c hc => isDigit_of_mem_toDigits (by decide) (by decide) hc) (v := 0) (w := 0) rfl
    have hlt := h.lt id hid
    have hbyte : (Nat.toDigits 10 id).foldl digit 0<256 := by
      cases hcons : Nat.toDigits 10 id using List.reverseRecOn with
      | nil => exact zero_lt_succ _
      | append_singleton cs c =>
        rw [foldl_append]
        exact mod_lt _ (by decide)
    have hval : (Nat.toDigits 10 id).foldl (fun v c => 10*v+(c.toNat - '0'.toNat)) 0=id :=
      ofDigitChars_ten_toDigits
    rw [hval] at hdig
    omega
  have hlen := two_mul_length_le_length_commaList h.ne_nil
  have hle := h.length_le
  rw [to_numeric,hread,if_pos (by omega),mod_eq_of_lt (by omega)]

end Numbers

/-- What is written: the maps, whose numbers have to fit. -/
structure Valid (algo_map : ℕ → AlgoMap) (collsel_map : GeometryShapeMap Text) : Prop where
  id : ∀ i < PAMI_XFER_COUNT, ∀ e ∈ (algo_map i).toList, e.1 < 256
  ppn : ∀ e ∈ collsel_map.toList, e.1 < 2 ^ 32
  geo_size : ∀ e ∈ collsel_map.toList, ∀ e' ∈ e.2.toList, e'.1 < 2 ^ 32
  coll_id : ∀ e ∈ collsel_map.toList, ∀ e' ∈ e.2.toList, ∀ e'' ∈ e'.2.toList, e''.1 < PAMI_XFER_COUNT
  message : ∀ p g c s t, selected collsel_map p g c s = some t →
    s < 10 ^ 15 ∧ ∃ ids, IsAlgoList ids ∧ t = commaList ids

section Reading

variable {A : ℕ → AlgoMap} {S : GeometryShapeMap Text} {d d' d'' : CollselData}

/-- All that was read so far was written. -/
structure Within (A : ℕ → AlgoMap) (S : GeometryShapeMap Text) (d : CollselData) : Prop where
  algorithms : ∀ (i id : ℕ) (name : Text), (d.algo_map i)[id]? = some name → (A i)[id]? = some name
  lists : ∀ p g c s l, selected d.collsel_map p g c s = some l →
    ∃ ids, IsAlgoList ids ∧ selected S p g c s = some (commaList ids) ∧ l = ids.length :: ids
  full : Full d.collsel_map

/-- Reading goes on: nothing is lost, and what is new was written. -/
structure Grows (A : ℕ → AlgoMap) (S : GeometryShapeMap Text) (d d' : CollselData) : Prop where
  within : Within A S d → Within A S d'
  algorithms : ∀ (i id : ℕ), ((d.algo_map i)[id]?).isSome = true → ((d'.algo_map i)[id]?).isSome = true
  lists : ∀ p g c s, (selected d.collsel_map p g c s).isSome = true → (selected d'.collsel_map p g c s).isSome = true

theorem Grows.refl : Grows A S d d := ⟨id,fun _ _ => id,fun _ _ _ _ => id⟩

theorem Grows.trans (h : Grows A S d d') (h' : Grows A S d' d'') : Grows A S d d'' where
  within := fun hw => h'.within (h.within hw)
  algorithms := fun i id hs => h'.algorithms i id (h.algorithms i id hs)
  lists := fun p g c s hs => h'.lists p g c s (h.lists p g c s hs)

def Stays (A : ℕ → AlgoMap) (S : GeometryShapeMap Text) (P : CollselData → Prop) : Prop :=
  ∀ d d', Grows A S d d' → P d → P d'

theorem loop_elements {α : Type} {tag : String} {children : α → XmlNode} {entries : List α}
    {body : XmlNode → CollselData → Except CollselData CollselData} {P : α → CollselData → Prop}
    (hP : ∀ e, Stays A S (P e))
    (h : ∀ e ∈ entries, ∀ d, ∃ d', body (children e) d = .ok d' ∧ Grows A S d d' ∧ P e d') (d : CollselData) :
    ∃ d', (elements tag children entries .null).loop body d = .ok d' ∧ Grows A S d d' ∧ ∀ e ∈ entries, P e d' := by
  induction entries generalizing d with
  | nil =>
    refine ⟨d,rfl,Grows.refl,?_⟩
    intro e he
    exact absurd he not_mem_nil
  | cons e entries ih =>
    obtain ⟨d1,hd1,hg1,hP1⟩ := h e mem_cons_self d
    obtain ⟨d2,hd2,hg2,hP2⟩ := ih (fun e he => h e (mem_cons_of_mem _ he)) d1
    refine ⟨d2,?_,hg1.trans hg2,?_⟩
    · change (body (children e) d).bind _ = _
      rw [hd1]
      exact hd2
    · intro e' he'
      cases mem_cons.mp he' with
      | inl heq => exact heq ▸ hP e _ _ hg2 hP1
      | inr he' => exact hP2 e' he'

theorem parse_algorithm_spec {i id : ℕ} {name : Text} (hid : id<256) (hname : (A i)[id]? = some name)
    (d : CollselData) : ∃ d', parse_algorithm i (append_algorithm (id, name)) d = .ok d' ∧ Grows A S d d' ∧
      ((d'.algo_map i)[id]?).isSome=true := by
  have hread : parse_algorithm i (append_algorithm (id, name)) d =
      .ok { d with algo_map := update d.algo_map i ((d.algo_map i).insert id name) } := by
    rw [parse_algorithm,append_algorithm,text,numbered,toUnsigned_number (by omega)]
    rfl
  have hmap : ∀ j k, (update d.algo_map i ((d.algo_map i).insert id name) j)[k]? =
      if j=i ∧ id=k then some name else (d.algo_map j)[k]? := by
    intro j k
    by_cases hj : j=i
    · subst hj
      rw [update_self,getElem?_insert_eq]
      exact if_congr (and_iff_right rfl).symm rfl rfl
    · rw [update_of_ne hj,if_neg fun h => hj h.1]
  refine ⟨_,hread,⟨?_,?_,fun _ _ _ _ hs => hs⟩,?_⟩
  · intro hw
    refine ⟨?_,hw.lists,hw.full⟩
    intro j k n hn
    have hnew := (hmap j k).symm.trans hn
    split at hnew
    · rename_i heq
      obtain ⟨rfl,rfl⟩ := heq
      exact hname.trans hnew
    · exact hw.algorithms j k n hnew
  · intro j k hs
    change ((update d.algo_map i ((d.algo_map i).insert id name) j)[k]?).isSome=true
    rw [hmap]
    split
    · rfl
    · exact hs
  · change ((update d.algo_map i ((d.algo_map i).insert id name) i)[id]?).isSome=true
    rw [hmap,if_pos ⟨rfl,rfl⟩]
    rfl

theorem grows_assign {p g c s : ℕ} {ids : List ℕ} (hids : IsAlgoList ids)
    (hs : selected S p g c s = some (commaList ids)) :
    Grows A S d { d with collsel_map := assign d.collsel_map p g c s (ids.length :: ids) } := by
  refine ⟨?_,fun _ _ h => h,fun _ _ _ _ h => selected_assign_mono h⟩
  intro hw
  refine ⟨hw.algorithms,?_,hw.full.assign⟩
  intro p' g' c' s' l hl
  have hnew := (selected_assign p' g' c' s').symm.trans hl
  split at hnew
  · rename_i heq
    obtain ⟨rfl,rfl,rfl,rfl⟩ := heq
    exact ⟨ids,hids,hs,(some.inj hnew).symm⟩
  · exact hw.lists p' g' c' s' l hnew

section Messages

variable {p g c : ℕ}

def ReadSizes (p g c : ℕ) (sizes : List (ℕ × Text)) (d : CollselData) : Prop :=
  ∀ e ∈ sizes, (selected d.collsel_map p g c e.1).isSome = true

theorem stays_readSizes {sizes : List (ℕ × Text)} : Stays A S (ReadSizes p g c sizes) :=
  fun _ _ h hs e he => h.lists p g c e.1 (hs e he)

theorem parse_message_spec {size_min size_max : ℕ} {t : Text}
    (hmin : size_min<10^15 ∧ ∃ ids, IsAlgoList ids ∧ t = commaList ids) (hmax : size_max<10^15)
    (hs : selected S p g c size_min = some t) (hs' : selected S p g c size_max = some t) (d : CollselData) :
    ∃ d', parse_message p g c (append_message size_min size_max t) d = .ok d' ∧ Grows A S d d' ∧
      ReadSizes p g c [(size_min, t),(size_max, t)] d' := by
  obtain ⟨hlt,ids,hids,rfl⟩ := hmin
  have hread : parse_message p g c (append_message size_min size_max (commaList ids)) d =
      .ok ⟨assign (assign d.collsel_map p g c size_min (ids.length :: ids)) p g c size_max (ids.length :: ids),
        d.algo_map⟩ := by
    rw [parse_message,append_message,text,numbered,strtoul_number hlt]
    dsimp only
    rw [text,numbered,strtoul_number hmax]
    dsimp only [text]
    rw [to_numeric_commaList hids]
  refine ⟨_,hread,?_,?_⟩
  · exact (grows_assign (d := d) hids hs).trans (grows_assign
      (d := { d with collsel_map := assign d.collsel_map p g c size_min (ids.length :: ids) }) hids hs')
  · intro e he
    cases mem_cons.mp he with
    | inl he =>
      rw [he]
      apply selected_assign_mono
      rw [selected_assign_self,isSome_some]
    | inr he =>
      rw [mem_singleton.mp he]
      change (selected (assign _ p g c size_max _) p g c size_max).isSome=true
      rw [selected_assign_self,isSome_some]

theorem parse_messages_spec (hv : Valid A S) (sizes : List (ℕ × Text))
    (hsiz : ∀ e ∈ sizes, selected S p g c e.1 = some e.2) (d : CollselData) :
    ∃ d', (append_message_data sizes).loop (parse_message p g c) d = .ok d' ∧ Grows A S d d' ∧
      ReadSizes p g c sizes d' := by
  induction sizes using append_message_data.induct generalizing d with
  | case1 =>
    refine ⟨d,rfl,Grows.refl,?_⟩
    intro e he
    exact absurd he not_mem_nil
  | case2 a t =>
    have ha := hsiz (a, t) mem_cons_self
    have hli := hv.message p g c a t ha
    obtain ⟨d1,hd1,hg1,hr1⟩ := parse_message_spec (A := A) hli hli.1 ha ha d
    refine ⟨d1,?_,hg1,?_⟩
    · change (parse_message p g c (append_message a a t) d).bind _ = _
      rw [hd1]
      rfl
    · intro e he
      exact hr1 e (mem_cons_of_mem _ he)
  | case3 a b t rest ih =>
    have ha := hsiz (a, t) mem_cons_self
    have hb := hsiz (b, t) (mem_cons_of_mem _ mem_cons_self)
    have hli := hv.message p g c a t ha
    obtain ⟨d1,hd1,hg1,hr1⟩ := parse_message_spec (A := A) hli (hv.message p g c b t hb).1 ha hb d
    have hrs : ∀ e ∈ rest, selected S p g c e.1 = some e.2 :=
      fun e he => hsiz e (mem_cons_of_mem _ (mem_cons_of_mem _ he))
    obtain ⟨d2,hd2,hg2,hr2⟩ := ih hrs d1
    refine ⟨d2,?_,hg1.trans hg2,?_⟩
    · rw [append_message_data,if_pos rfl]
      change (parse_message p g c (append_message a b t) d).bind _ = _
      rw [hd1]
      exact hd2
    · intro e he
      cases mem_cons.mp he with
      | inl heq => exact hg2.lists p g c e.1 (hr1 e (heq ▸ mem_cons_self))
      | inr he =>
        cases mem_cons.mp he with
        | inl heq => exact hg2.lists p g c e.1 (hr1 e (heq ▸ mem_cons_of_mem _ mem_cons_self))
        | inr he => exact hr2 e he
  | case4 a t b u rest hne ih =>
    have ha := hsiz (a, t) mem_cons_self
    have hli := hv.message p g c a t ha
    obtain ⟨d1,hd1,hg1,hr1⟩ := parse_message_spec (A := A) hli hli.1 ha ha d
    obtain ⟨d2,hd2,hg2,hr2⟩ := ih (fun e he => hsiz e (mem_cons_of_mem _ he)) d1
    refine ⟨d2,?_,hg1.trans hg2,?_⟩
    · rw [append_message_data,if_neg hne]
      change (parse_message p g c (append_message a a t) d).bind _ = _
      rw [hd1]
      exact hd2
    · intro e he
      cases mem_cons.mp he with
      | inl heq => exact hg2.lists p g c e.1 (hr1 e (heq ▸ mem_cons_self))
      | inr he => exact hr2 e he

end Messages

theorem parse_collective_selection_data_spec (hv : Valid A S) {e : ℕ × GeometrySizeMap Text} (he : e ∈ S.toList)
    (d : CollselData) : ∃ d', parse_collective_selection_data (append_geometry_data e) d = .ok d' ∧ Grows A S d d' ∧
      ∀ e' ∈ e.2.toList, ∀ e'' ∈ e'.2.toList, ReadSizes e.1 e'.1 e''.1 e''.2.toList d' := by
  have hppn : S[e.1]? = some e.2 := ExtTreeMap.mem_toList_iff_getElem?_eq_some.mp he
  have hcoll : ∀ e' ∈ e.2.toList, ∀ e'' ∈ e'.2.toList, ∀ d,
      ∃ d', numbered toCollective (fun coll_id => loop (parse_message e.1 e'.1 coll_id))
        (.text COLL_ID_TAG (number e''.1) (append_message_data e''.2.toList)) d = .ok d' ∧ Grows A S d d' ∧
        ReadSizes e.1 e'.1 e''.1 e''.2.toList d' := by
    intro e' he' e'' he'' d
    rw [text,numbered,toCollective_number (hv.coll_id e he e' he' e'' he'')]
    apply parse_messages_spec hv
    intro m hm
    rw [selected,messages,geometries,hppn,bind_some,ExtTreeMap.mem_toList_iff_getElem?_eq_some.mp he',
      bind_some,ExtTreeMap.mem_toList_iff_getElem?_eq_some.mp he'',bind_some]
    exact ExtTreeMap.mem_toList_iff_getElem?_eq_some.mp hm
  have hgeo : ∀ e' ∈ e.2.toList, ∀ d,
      ∃ d', numbered toUnsigned (fun geo_size => loop (numbered toCollective fun coll_id =>
        loop (parse_message e.1 geo_size coll_id))) (append_collective_data e') d = .ok d' ∧ Grows A S d d' ∧
        ∀ e'' ∈ e'.2.toList, ReadSizes e.1 e'.1 e''.1 e''.2.toList d' := by
    intro e' he' d
    have hsta : ∀ e'' : ℕ × MessageSizeMap Text, Stays A S (ReadSizes e.1 e'.1 e''.1 e''.2.toList) :=
      fun _ => stays_readSizes
    rw [append_collective_data,text,numbered,toUnsigned_number (hv.geo_size e he e' he')]
    exact loop_elements hsta (hcoll e' he') d
  have hsta : ∀ e' : ℕ × CollectivesMap Text,
      Stays A S fun d => ∀ e'' ∈ e'.2.toList, ReadSizes e.1 e'.1 e''.1 e''.2.toList d :=
    fun e' d d' hg h e'' he'' => stays_readSizes d d' hg (h e'' he'')
  rw [parse_collective_selection_data,append_geometry_data,text,numbered,toUnsigned_number (hv.ppn e he)]
  exact loop_elements hsta hgeo d

theorem parse_algorithm_mapping_spec (hv : Valid A S) (d : CollselData) :
    ∃ d', parse_algorithm_mapping (append_algo_map_data A) d = .ok d' ∧ Grows A S d d' ∧
      ∀ i<PAMI_XFER_COUNT, ∀ e ∈ (A i).toList, ((d'.algo_map i)[e.1]?).isSome=true := by
  have hsta : ∀ i, Stays A S fun d => ∀ e ∈ (A i).toList, ((d.algo_map i)[e.1]?).isSome=true :=
    fun i d d' hg h e he => hg.algorithms i e.1 (h e he)
  have hcoll : ∀ i ∈ (List.range PAMI_XFER_COUNT).filter (fun i => (A i).toList ≠ []), ∀ d,
      ∃ d', numbered toCollective (fun coll_id => loop (parse_algorithm coll_id))
        (.text COLLECTIVE_ID_TAG (number i) (elements ALGO_TAG append_algorithm (A i).toList .null)) d = .ok d' ∧
        Grows A S d d' ∧ ∀ e ∈ (A i).toList, ((d'.algo_map i)[e.1]?).isSome=true := by
    intro i hi d
    have hread : ∀ e : ℕ × Text, Stays A S fun d => ((d.algo_map i)[e.1]?).isSome=true :=
      fun e d d' hg h => hg.algorithms i e.1 h
    have hi : i<PAMI_XFER_COUNT := mem_range.mp (mem_filter.mp hi).1
    rw [text,numbered,toCollective_number hi]
    apply loop_elements hread
    intro e he d
    exact parse_algorithm_spec (hv.id i hi e he) (ExtTreeMap.mem_toList_iff_getElem?_eq_some.mp he) d
  obtain ⟨d',hd',hg,hr⟩ := loop_elements hsta hcoll d
  refine ⟨d',hd',hg,?_⟩
  intro i hi e he
  refine hr i (mem_filter.mpr ⟨mem_range.mpr hi,?_⟩) e he
  exact decide_eq_true (ne_nil_of_mem he)

theorem read_ppn_data (hv : Valid A S) (entries : List (ℕ × GeometrySizeMap Text)) (hent : ∀ e ∈ entries, e ∈ S.toList)
    (d : CollselData) : Grows A S d (read_xml_nodes (elements GEOMETRIES_TAG append_geometry_data entries .null) d) ∧
      ∀ e ∈ entries, ∀ e' ∈ e.2.toList, ∀ e'' ∈ e'.2.toList, ReadSizes e.1 e'.1 e''.1 e''.2.toList
        (read_xml_nodes (elements GEOMETRIES_TAG append_geometry_data entries .null) d) := by
  induction entries generalizing d with
  | nil =>
    refine ⟨Grows.refl,?_⟩
    intro e he
    exact absurd he not_mem_nil
  | cons e entries ih =>
    have ih := ih fun e he => hent e (mem_cons_of_mem _ he)
    obtain ⟨d1,hd1,hg1,hr1⟩ := parse_collective_selection_data_spec hv (hent e mem_cons_self) d
    have hread : read_xml_nodes (elements GEOMETRIES_TAG append_geometry_data (e :: entries) .null) d =
        read_xml_nodes (elements GEOMETRIES_TAG append_geometry_data entries .null)
          (read_xml_nodes (elements GEOMETRIES_TAG append_geometry_data entries .null) d1) := by
      have htag : GEOMETRIES_TAG≠COLLECTIVES_TAG := by decide
      rw [elements,foldr_cons,read_xml_nodes,if_neg htag,if_pos rfl,hd1]
      rfl
    rw [hread]
    have hg := (ih d1).1.trans (ih _).1
    refine ⟨hg1.trans hg,?_⟩
    intro e' he'
    cases mem_cons.mp he' with
    | inl heq =>
      intro f hf f' hf'
      rw [heq] at hf ⊢
      exact stays_readSizes _ _ hg (hr1 f hf f' hf')
    | inr he' => exact (ih _).2 e' he'

theorem read_document {environment : Text} (h : parse_algorithm_mapping (append_algo_map_data A) d = .ok d') :
    read_xml_nodes (document environment A S) d =
      read_xml_nodes (append_ppn_data S) (read_xml_nodes (append_ppn_data S) d') := by
  simp [document,text,read_xml_nodes,h,PAMI_TUNE_TAG,PAMI_ENV_TAG,COLLSEL_TAG,VERSION_TAG,
    COLLECTIVES_TAG,GEOMETRIES_TAG]

def CollselData.empty : CollselData := ⟨∅, fun _ => ∅⟩

theorem within_empty : Within A S empty := by
  refine ⟨?_,?_,full_empty⟩
  · intro i id name h
    exact absurd (ExtTreeMap.getElem?_empty.symm.trans h) (some_ne_none _).symm
  · intro p g c s l h
    rw [selected,messages,geometries,empty,ExtTreeMap.getElem?_empty] at h
    contradiction

/-- What reading the written file gives: the algorithms, and the lists of the data. -/
structure ReadBack (A : ℕ → AlgoMap) (S : GeometryShapeMap Text) (d : CollselData) : Prop where
  algorithms : ∀ i < PAMI_XFER_COUNT, d.algo_map i = A i
  lists : ∀ p g c s ids, IsAlgoList ids →
    (selected d.collsel_map p g c s = some (ids.length :: ids) ↔ selected S p g c s = some (commaList ids))
  ppn : ∀ p, (d.collsel_map[p]?).isSome = true ↔ ∃ g c s, (selected S p g c s).isSome = true
  geometries : ∀ p g, (geometries d.collsel_map p g).isSome = true ↔ ∃ c s, (selected S p g c s).isSome = true
  messages : ∀ p g c, (messages d.collsel_map p g c).isSome = true ↔ ∃ s, (selected S p g c s).isSome = true
  sizes : ∀ p g c s, (selected d.collsel_map p g c s).isSome = true ↔ (selected S p g c s).isSome = true

theorem readBack_of_within (hw : Within A S d)
    (halgo : ∀ i<PAMI_XFER_COUNT, ∀ e ∈ (A i).toList, ((d.algo_map i)[e.1]?).isSome=true)
    (hlis : ∀ p g c s t, selected S p g c s = some t → (selected d.collsel_map p g c s).isSome=true) :
    ReadBack A S d := by
  have hsiz : ∀ p g c s, (selected d.collsel_map p g c s).isSome=true ↔ (selected S p g c s).isSome=true := by
    intro p g c s
    rw [isSome_iff_exists,isSome_iff_exists]
    constructor
    · rintro ⟨l,hl⟩
      obtain ⟨ids,hids,hS,heq⟩ := hw.lists p g c s l hl
      exact ⟨commaList ids,hS⟩
    · rintro ⟨t,ht⟩
      exact isSome_iff_exists.mp (hlis p g c s t ht)
  refine ⟨?_,?_,?_,?_,?_,hsiz⟩
  · intro i hi
    apply ExtTreeMap.ext_getElem?
    intro id
    cases hread : (d.algo_map i)[id]? with
    | some name => exact (hw.algorithms i id name hread).symm
    | none =>
      cases hname : (A i)[id]? with
      | none => rfl
      | some name =>
        have hso := halgo i hi (id, name) (ExtTreeMap.mem_toList_iff_getElem?_eq_some.mpr hname)
        rw [hread] at hso
        contradiction
  · intro p g c s ids hids
    constructor
    · intro h
      obtain ⟨ids',hids',hS,heq⟩ := hw.lists p g c s _ h
      rw [hS,(List.cons.inj heq).2]
    · intro h
      obtain ⟨l,hl⟩ := isSome_iff_exists.mp (hlis p g c s _ h)
      obtain ⟨ids',hids',hS,heq⟩ := hw.lists p g c s l hl
      have hids : ids'=ids := commaList_inj hids'.ne_nil hids.ne_nil (some.inj (hS.symm.trans h))
      rw [hl,heq,hids]
  · intro p
    simp only [← hsiz]
    exact ⟨hw.full.ppn p,fun ⟨g,c,s,h⟩ => isSome_of_isSome_bind (isSome_of_isSome_bind (isSome_of_isSome_bind h))⟩
  · intro p g
    simp only [← hsiz]
    exact ⟨hw.full.geometries p g,fun ⟨c,s,h⟩ => isSome_of_isSome_bind (isSome_of_isSome_bind h)⟩
  · intro p g c
    simp only [← hsiz]
    exact ⟨hw.full.messages p g c,fun ⟨s,h⟩ => isSome_of_isSome_bind h⟩

theorem read_document_readBack {environment : Text} (hv : Valid A S) :
    ReadBack A S (read_xml_nodes (document environment A S) empty) := by
  obtain ⟨d1,hd1,hg1,halgo⟩ := parse_algorithm_mapping_spec hv empty
  have hda := read_ppn_data hv S.toList (fun e he => he)
  obtain ⟨hg2,hr2⟩ := hda d1
  obtain ⟨hg3,hr3⟩ := hda (read_xml_nodes (append_ppn_data S) d1)
  rw [read_document hd1]
  apply readBack_of_within
  · exact (hg1.trans (hg2.trans hg3)).within within_empty
  · intro i hi e he
    exact (hg2.trans hg3).algorithms i e.1 (halgo i hi e he)
  · intro p g c s t ht
    obtain ⟨e,he,rfl,e',he',rfl,e'',he'',rfl,hm⟩ := selected_eq_some ht
    exact hr3 e he e' he' e'' he'' (s, t) hm

/-- A file that was written is read into empty data with the same algorithms and lists. A key under which there is no message
size is not there any more. -/
theorem read_write {parse : Text → Option XmlNode} {environment : Text} (hv : Valid A S)
    (hpar : parse (write_xml environment A S) = some (document environment A S)) :
    ∃ d, read_xml parse (write_xml environment A S) empty = some d ∧ ReadBack A S d := by
  refine ⟨read_xml_nodes (document environment A S) empty,?_,read_document_readBack hv⟩
  rw [read_xml,hpar,map_some]

end Reading

section Concrete

def broadcastAlgorithms : ℕ → AlgoMap := fun i =>
  if i = 0 then ((∅ : AlgoMap).insert 0 "I0:Binomial".toList).insert 1 "I0:Ring".toList else ∅

/-- Their lists on four tasks: the first two message sizes have one list. -/
def broadcastLists : GeometryShapeMap Text :=
  assign (assign (assign ∅ 1 4 0 1 (commaList [0, 1])) 1 4 0 64 (commaList [0, 1])) 1 4 0 128 (commaList [1, 0])

theorem valid_broadcastLists : Valid broadcastAlgorithms broadcastLists := by
  have hids : IsAlgoList [0,1] := ⟨by decide,by decide,by decide⟩
  have hids' : IsAlgoList [1,0] := ⟨by decide,by decide,by decide⟩
  refine ⟨by decide,by decide,by decide,by decide,?_⟩
  intro p g c s t h
  rw [broadcastLists,selected_assign,selected_assign,selected_assign] at h
  split at h
  · exact ⟨by omega,[1,0],hids',(some.inj h).symm⟩
  · split at h
    · exact ⟨by omega,[0,1],hids,(some.inj h).symm⟩
    · split at h
      · exact ⟨by omega,[0,1],hids,(some.inj h).symm⟩
      · rw [selected,messages,geometries,ExtTreeMap.getElem?_empty] at h
        contradiction

theorem read_write_broadcastLists : Valid broadcastAlgorithms broadcastLists ∧
    ∃ d, read_xml (fun _ => some (document [] broadcastAlgorithms broadcastLists))
      (write_xml [] broadcastAlgorithms broadcastLists) empty = some d ∧
      ReadBack broadcastAlgorithms broadcastLists d :=
  ⟨valid_broadcastLists,read_write valid_broadcastLists rfl⟩

/-- A broadcast on four tasks, all of whose message sizes were above the threshold. -/
def noMessages : GeometryShapeMap Text :=
  (∅ : GeometryShapeMap Text).insert 1 ((∅ : GeometrySizeMap Text).insert 4 ((∅ : CollectivesMap Text).insert 0 ∅))

theorem valid_noMessages : Valid broadcastAlgorithms noMessages := by
  refine ⟨by decide,by decide,by decide,by decide,?_⟩
  intro p g c s t h
  have hnn : ∀ e ∈ noMessages.toList, ∀ e' ∈ e.2.toList, ∀ e'' ∈ e'.2.toList, e''.2.toList = [] := by decide
  obtain ⟨e,he,-,e',he',-,e'',he'',-,hm⟩ := selected_eq_some h
  rw [hnn e he e' he' e'' he''] at hm
  contradiction

/-- The keys of a collective without message sizes are lost. -/
theorem noMessages_lost : Valid broadcastAlgorithms noMessages ∧ (messages noMessages 1 4 0).isSome = true ∧
    (read_xml (fun _ => some (document [] broadcastAlgorithms noMessages)) (write_xml [] broadcastAlgorithms noMessages)
      empty).map (fun d => (messages d.collsel_map 1 4 0).isSome) = some false := by
  refine ⟨valid_noMessages,?_⟩
  decide

end Concrete

end PAMI.Collsel
