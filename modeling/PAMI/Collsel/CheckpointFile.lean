import PAMI.Collsel.AdvisorTable

namespace PAMI.Collsel

open PAMI.Math List

section Records

variable {r : AlgoRecord} {records : List AlgoRecord}

theorem reads_double (x : UInt64) : Reads readWord (word x.toNat) x.toNat := reads_readWord x.toNat_lt

theorem reads_record (hr : r.algo_name.length<2^64) : Reads read_record (write_record r) r := by
  apply (reads_double r.algo).bind
  apply (reads_readWord hr).bind
  apply reads_readChars.bind
  apply (reads_double r.results.min).bind
  apply (reads_double r.results.max).bind
  have h := (reads_double r.results.avg).map (f := fun avg => (⟨UInt64.ofNat r.algo.toNat,r.algo_name,
    UInt64.ofNat r.results.min.toNat,UInt64.ofNat r.results.max.toNat,UInt64.ofNat avg⟩ : AlgoRecord))
  simpa only [UInt64.ofNat_toNat] using h

@[simp] theorem length_write_record : (write_record r).length=SSIZE_T*2+SDOUBLE*3+r.algo_name.length := by
  simp only [write_record,length_append,length_word,SSIZE_T,SDOUBLE]
  omega

/-- Records that fit the sizes of a file. -/
structure Fits (records : List AlgoRecord) : Prop where
  length : records.length ≤ COLLSEL_MAX_ALGO
  name : ∀ r ∈ records, r.algo_name.length < 2 ^ 32

theorem Fits.sum_lt (h : Fits records) :
    (records.map fun r => SSIZE_T*2+SDOUBLE*3+r.algo_name.length).sum≤COLLSEL_MAX_ALGO*2^33 := by
  calc (records.map fun r => SSIZE_T*2+SDOUBLE*3+r.algo_name.length).sum
      ≤ (records.map fun r => SSIZE_T*2+SDOUBLE*3+r.algo_name.length).length • 2^33 := by
        apply sum_le_card_nsmul
        intro size hsi
        obtain ⟨r,hr,rfl⟩ := mem_map.mp hsi
        have hname := h.name r hr
        change 8*2+8*3+r.algo_name.length≤2^33
        omega
    _ ≤ COLLSEL_MAX_ALGO*2^33 := by
        rw [length_map,smul_eq_mul]
        exact Nat.mul_le_mul_right _ h.length

theorem length_file_write : (file_write records).length =
    (records.map fun r => SSIZE_T*2+SDOUBLE*3+r.algo_name.length).sum+SSIZE_T*2 := by
  simp only [file_write,length_append,length_word,List.length_flatMap,length_write_record]
  change 8+(_+8) = _+8*2
  omega

theorem file_check_file_write_iff :
    file_check (some (file_write records)) = .FILE_OK ↔ (file_write records).length<2^64 := by
  have hdrop : (file_write records).drop ((file_write records).length-SSIZE_T) =
      word ((records.map fun r => SSIZE_T*2+SDOUBLE*3+r.algo_name.length).sum+SSIZE_T*2) := by
    rw [file_write,← append_assoc]
    apply drop_left'
    rw [length_append,length_append,length_word,length_word,show SSIZE_T=8 from rfl,Nat.add_sub_cancel,
      length_append,length_word]
  have hlng : (file_write records).length = _ := length_file_write
  have hle : SSIZE_T≤(file_write records).length := by omega
  rw [file_check,hdrop,wordValue_word_mod,← hlng]
  simp only [hle,true_and,ite_eq_left_iff,reduceCtorEq,imp_false,not_not]
  omega

theorem file_check_file_write (h : Fits records) : file_check (some (file_write records)) = .FILE_OK := by
  have hsum := h.sum_lt
  have hmax : COLLSEL_MAX_ALGO=40 := rfl
  have hsi : SSIZE_T=8 := rfl
  rw [file_check_file_write_iff,length_file_write]
  omega

/-- The file of the records is accepted, and no file that was cut short. -/
def OnlyWholeFileOk (records : List AlgoRecord) : Prop := file_check (some (file_write records)) = .FILE_OK ∧
    ∀ cut, cut <+: file_write records → cut ≠ file_write records → file_check (some cut) ≠ .FILE_OK

/-- The eight bytes from place `i` of the file, lowest byte first, are the number of the place behind them. -/
def SpellsEnd (records : List AlgoRecord) (i : ℕ) : Prop :=
  wordValue (((file_write records).drop i).take SSIZE_T) = i + SSIZE_T

theorem file_check_take {n : ℕ} (hn : n<(file_write records).length) :
    file_check (some ((file_write records).take n)) = .FILE_OK ↔ ∃ i, i+SSIZE_T=n ∧ SpellsEnd records i := by
  have hlng : ((file_write records).take n).length=n := length_take_of_le hn.le
  rw [file_check,hlng]
  simp only [ite_eq_left_iff,reduceCtorEq,imp_false,not_not,SpellsEnd]
  constructor
  · rintro ⟨hle,hval⟩
    refine ⟨n-SSIZE_T,Nat.sub_add_cancel hle,?_⟩
    rw [drop_take,Nat.sub_sub_self hle] at hval
    rw [hval,Nat.sub_add_cancel hle]
  · rintro ⟨i,rfl,hval⟩
    refine ⟨Nat.le_add_left _ _,?_⟩
    rw [drop_take,Nat.add_sub_cancel,Nat.add_sub_cancel_left,hval]

theorem onlyWholeFileOk_iff (records : List AlgoRecord) : OnlyWholeFileOk records ↔
    (file_write records).length < 2 ^ 64 ∧
      ∀ i, i + SSIZE_T < (file_write records).length → ¬ SpellsEnd records i := by
  refine and_congr file_check_file_write_iff ⟨fun h i hi hspe => ?_,fun h cut hprf hne hok => ?_⟩
  · apply h ((file_write records).take (i + SSIZE_T)) ( take_prefix _ _)
    · intro heq
      have hlng := congrArg length heq
      rw [length_take] at hlng
      omega
    · exact (file_check_take hi).mpr ⟨i,rfl,hspe⟩
  · have hlt : cut.length<(file_write records).length :=
      lt_of_le_of_ne hprf.length_le fun heq => hne (hprf.eq_of_length heq)
    rw [prefix_iff_eq_take.mp hprf,file_check_take hlt] at hok
    obtain ⟨i,hi,hspe⟩ := hok
    exact h i (hi ▸ hlt) hspe

section Fields

theorem spellsEnd_of_split {f p t : Text} (h : file_write records = f ++ (p ++ t))
    (hp : p.length=SSIZE_T) : SpellsEnd records f.length ↔ wordValue p = f.length+SSIZE_T := by
  rw [SpellsEnd,h,drop_left,← hp,take_left]

/-- The number of the records is read from the first eight bytes. -/
theorem spellsEnd_zero : SpellsEnd records 0 ↔ records.length%2^64=SSIZE_T := by
  rw [← wordValue_word_mod,← Nat.zero_add SSIZE_T]
  exact spellsEnd_of_split (f := []) rfl length_word

/-- Where the record behind some others begins. -/
def recordPlace (before : List AlgoRecord) : ℕ :=
  SSIZE_T + (before.map fun r => SSIZE_T * 2 + SDOUBLE * 3 + r.algo_name.length).sum

variable (before after : List AlgoRecord)

theorem spellsEnd_piece {f p t : Text} (hrec : write_record r = f ++ (p ++ t)) (hp : p.length=SSIZE_T) :
    SpellsEnd (before ++ r :: after) (recordPlace before+f.length) ↔
      wordValue p = recordPlace before+f.length+SSIZE_T := by
  have hfront : (word (before ++ r :: after).length ++ (before.flatMap write_record ++ f)).length =
      recordPlace before+f.length := by
    simp only [length_append,length_word,List.length_flatMap,length_write_record,recordPlace,Nat.add_assoc]
    rfl
  obtain ⟨fsize,hfile⟩ : ∃ fsize, file_write (before ++ r :: after) = word (before ++ r :: after).length ++
    ((before ++ r :: after).flatMap write_record ++ word fsize) := ⟨_,rfl⟩
  rw [← hfront]
  apply spellsEnd_of_split (t := t ++ (after.flatMap write_record ++ word fsize)) ?_ hp
  rw [hfile,flatMap_append,flatMap_cons,hrec]
  simp only [append_assoc]

/-- The bytes of a field of a record: its index, the length of its name, eight characters of the name, or a result. -/
theorem spellsEnd_record {place : ℕ} (hpla : recordPlace before = place) :
    (SpellsEnd (before ++ r :: after) place ↔ r.algo.toNat=place+8) ∧
      (SpellsEnd (before ++ r :: after) (place+8) ↔ r.algo_name.length%2^64=place+16) ∧
      (∀ k, k+8 ≤ r.algo_name.length → (SpellsEnd (before ++ r :: after) (place+16+k) ↔
        wordValue ((r.algo_name.drop k).take 8) = place+16+k+8)) ∧
      (SpellsEnd (before ++ r :: after) (place+16+r.algo_name.length) ↔
        r.results.min.toNat=place+16+r.algo_name.length+8) ∧
      (SpellsEnd (before ++ r :: after) (place+16+(r.algo_name.length+8)) ↔
        r.results.max.toNat=place+16+(r.algo_name.length+8)+8) ∧
      (SpellsEnd (before ++ r :: after) (place+16+(r.algo_name.length+16)) ↔
        r.results.avg.toNat=place+16+(r.algo_name.length+16)+8) := by
  subst hpla
  have hdouble : ∀ x : UInt64, wordValue (word x.toNat)=x.toNat := fun x => wordValue_word x.toNat_lt
  have hname : ∀ {f p t : Text}, r.algo_name ++ (word r.results.min.toNat ++ (word r.results.max.toNat ++
      word r.results.avg.toNat)) = f ++ (p ++ t) → p.length=SSIZE_T →
      (SpellsEnd (before ++ r :: after) (recordPlace before+16+f.length) ↔
        wordValue p = recordPlace before+16+f.length+8) := by
    intro f p t heq hp
    have h := spellsEnd_piece before after (r := r) (f := word r.algo.toNat ++ (word r.algo_name.length ++ f)) (p := p)
      (t := t) (by
        rw [write_record,heq]
        simp only [append_assoc]) hp
    rwa [length_append,length_append,length_word,length_word,← Nat.add_assoc,← Nat.add_assoc] at h
  refine ⟨?_,?_,fun k hk => ?_,?_,?_,?_⟩
  · rw [← hdouble]
    exact spellsEnd_piece before after (f := []) rfl length_word
  · rw [← wordValue_word_mod]
    have h := spellsEnd_piece before after (r := r) (f := word r.algo.toNat) rfl length_word
    rwa [length_word] at h
  · have h := hname (f := r.algo_name.take k) (p := (r.algo_name.drop k).take 8)
      (t := (r.algo_name.drop k).drop 8 ++ _) (by
        rw [← append_assoc (take 8 _),take_append_drop,← append_assoc (take k _),take_append_drop]) (by
        rw [length_take,length_drop]
        exact Nat.min_eq_left (by omega))
    rwa [length_take_of_le (by omega)] at h
  · rw [← hdouble]
    exact hname rfl length_word
  · rw [← hdouble]
    have h := hname (f := r.algo_name ++ word r.results.min.toNat) (append_assoc _ _ _).symm length_word
    rwa [length_append,length_word] at h
  · rw [← hdouble]
    have h := hname (f := r.algo_name ++ (word r.results.min.toNat ++ word r.results.max.toNat))
      (p := word r.results.avg.toNat) (t := []) (by simp only [append_assoc,append_nil]) length_word
    rwa [length_append,length_append,length_word,length_word] at h

end Fields

theorem not_onlyWholeFileOk : ¬ OnlyWholeFileOk (replicate 8 ⟨0, [], ⟨0, 0, 0⟩⟩) := by
  intro h
  apply h.2 (word 8) (prefix_append _ _)
  · intro heq
    have hlng := congrArg length heq
    rw [length_file_write,length_word] at hlng
    contradiction
  · decide

theorem read_file_file_write (h : Fits records) : read_file.run' (file_write records) = some records := by
  have hcou : records.length<2^64 := h.length.trans_lt (by decide)
  have hread : Reads read_file (word records.length ++ records.flatMap write_record) records := by
    apply (reads_readWord hcou).bind
    apply Reads.list
    intro r hr
    exact reads_record ((h.name r hr).trans (by decide))
  rw [StateT.run',file_write,← append_assoc]
  exact congrArg (fun found => Prod.fst <$> found) (hread _)

end Records

end PAMI.Collsel
