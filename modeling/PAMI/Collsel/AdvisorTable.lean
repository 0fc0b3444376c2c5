import PAMI.Collsel.TuningFile
import PAMI.Math.PrefixReader

namespace PAMI.Collsel

open Std PAMI.Math

/-- The least, greatest and average time of a collective, as the bits of doubles. -/
structure Times where
  min : UInt64
  max : UInt64
  avg : UInt64

/-- The time of an algorithm that was skipped, 9.999999999999999e99. -/
def DOUBLE_DIG : UInt64 := 0x54B249AD2594C37C

structure AlgoRecord where
  algo : UInt64
  algo_name : Text
  results : Times

structure SortedList where
  algo_name : Text
  algo_id : ℕ
  times : Times

/-- What an algorithm is measured for. Its checkpoint file is named after it. -/
structure Configuration where
  procs_per_node : ℕ
  geometry_size : ℕ
  collective : ℕ
  message_size : ℕ
deriving DecidableEq

/-- An algorithm of a configuration, with its range of message sizes and what its metadata do not allow. -/
structure Algorithm where
  name : Text
  low : ℕ
  high : ℕ
  bitmask : ℕ

def COLLSEL_MAX_ALGO : ℕ := 40

/-- The machine: what the queries give for a configuration, and the positions in the order that `qsort` with `cmp_by_time`
leaves for some average times. -/
structure Platform where
  algorithms : Configuration → List Algorithm
  qsort : List UInt64 → List ℕ
  qsort_perm : ∀ times, (qsort times).Perm (List.range times.length)
  num_algo_le : ∀ c, (algorithms c).length ≤ COLLSEL_MAX_ALGO
  name_length_lt : ∀ c, ∀ a ∈ algorithms c, a.name.length < 2 ^ 32

/-- What a run meets at a configuration: the times, and what new records hold besides an empty name. -/
structure Measurement where
  times : ℕ → Times
  uninitialised : ℕ → UInt64 × Times

structure NameTable where
  algo_name_map : List (Text × ℕ)
  algo_ids : ℕ

structure Advisor where
  names : ℕ → NameTable
  algo_map : ℕ → AlgoMap
  algo_list : ℕ → SortedList
  files : Configuration → Option Text
  currAlgoList : Option Text
  /-- The message size before the one of the loop. -/
  last_size : ℕ
  ppn_map : GeometryShapeMap Text

inductive FileState
  | FILE_NOT_EXIST
  | FILE_BAD
  | FILE_OK
deriving DecidableEq

section Files

def write_record (r : AlgoRecord) : Text := word r.algo.toNat ++ (word r.algo_name.length ++ (r.algo_name ++
    (word r.results.min.toNat ++ (word r.results.max.toNat ++ word r.results.avg.toNat))))

def SSIZE_T : ℕ := 8
def SDOUBLE : ℕ := 8

def file_write (records : List AlgoRecord) : Text :=
  let fsize := (records.map fun r => SSIZE_T * 2 + SDOUBLE * 3 + r.algo_name.length).sum + SSIZE_T * 2
  word records.length ++ (records.flatMap write_record ++ word fsize)

def file_check : Option Text → FileState
  | none => .FILE_NOT_EXIST
  | some file =>
    if SSIZE_T ≤ file.length ∧ wordValue (file.drop (file.length - SSIZE_T)) = file.length then .FILE_OK else .FILE_BAD

def read_record : Reader AlgoRecord := do
  let tmp_algo ← readWord
  let tmp_algo_name_len ← readWord
  let tmp_algo_name ← readChars tmp_algo_name_len
  let min ← readWord
  let max ← readWord
  let avg ← readWord
  pure ⟨UInt64.ofNat tmp_algo, tmp_algo_name, UInt64.ofNat min, UInt64.ofNat max, UInt64.ofNat avg⟩

def read_file : Reader (List AlgoRecord) := do
  let tmp_num_algo ← readWord
  readList read_record tmp_num_algo

end Files

/-- The id of a name, which is the next one if the name is new. -/
def NameTable.find (t : NameTable) (algo_name : Text) : ℕ × NameTable :=
  match t.algo_name_map.lookup algo_name with
  | some foundId => (foundId, t)
  | none => (t.algo_ids, ⟨(algo_name, t.algo_ids) :: t.algo_name_map, t.algo_ids + 1⟩)

/-- The ids of some names in order, and the table with all of them. -/
def NameTable.findAll : List Text → NameTable → List ℕ × NameTable
  | [], t => ([], t)
  | algo_name :: names, t =>
    let found := t.find algo_name
    let rest := findAll names found.2
    (found.1 :: rest.1, rest.2)

/-- An algorithm takes its place in the list, and in the tables. -/
def Advisor.enter (d : Advisor) (coll_xfer_type i : ℕ) (algo_name : Text) (times : Times) : Advisor :=
  let found := (d.names coll_xfer_type).find algo_name
  { d with
    names := Function.update d.names coll_xfer_type found.2
    algo_map := Function.update d.algo_map coll_xfer_type
      ((d.algo_map coll_xfer_type).insert found.1 algo_name)
    algo_list := Function.update d.algo_list i ⟨algo_name, found.1, times⟩ }

def Advisor.reload (coll_xfer_type : ℕ) : ℕ → List AlgoRecord → Advisor → Advisor
  | _, [], d => d
  | i, r :: records, d => reload coll_xfer_type (i + 1) records (d.enter coll_xfer_type i r.algo_name r.results)

def Algorithm.skipped (a : Algorithm) (message_size : ℕ) : Prop :=
  message_size < a.low ∨ message_size > a.high ∨ a.bitmask ≠ 0

instance (a : Algorithm) (message_size : ℕ) : Decidable (a.skipped message_size) :=
  inferInstanceAs (Decidable (_ ∨ _ ∨ _))

structure Measuring where
  advisor : Advisor
  algo_record : ℕ → AlgoRecord
  act_algo_num : ℕ

def Measuring.algorithm (c : Configuration) (m : Measurement) (algo : ℕ) (a : Algorithm) (s : Measuring) : Measuring :=
  if a.skipped c.message_size then
    { s with advisor := s.advisor.enter c.collective algo a.name ⟨DOUBLE_DIG, DOUBLE_DIG, DOUBLE_DIG⟩ }
  else
    { advisor := s.advisor.enter c.collective algo a.name (m.times algo)
      algo_record := Function.update s.algo_record algo ⟨UInt64.ofNat algo, a.name, m.times algo⟩
      act_algo_num := s.act_algo_num + 1 }

def Measuring.loop (c : Configuration) (m : Measurement) : ℕ → List Algorithm → Measuring → Measuring
  | _, [], s => s
  | algo, a :: as, s => loop c m (algo + 1) as (s.algorithm c m algo a)

/-- The measured algorithms, and the checkpoint file. -/
def Advisor.measure (P : Platform) (c : Configuration) (m : Measurement) (d : Advisor) : Advisor :=
  let records := fun i => ⟨(m.uninitialised i).1, [], (m.uninitialised i).2⟩
  let s := Measuring.loop c m 0 (P.algorithms c) ⟨d, records, 0⟩
  let file := file_write ((List.range s.act_algo_num).map s.algo_record)
  { s.advisor with files := Function.update s.advisor.files c (some file) }

/-- The list in its new order, and its text. Without an algorithm the text has the first id of the array. -/
def Advisor.sort_algo_list (P : Platform) (length : ℕ) (d : Advisor) : Advisor × Text :=
  let order := P.qsort ((List.range length).map fun i => (d.algo_list i).times.avg)
  let algo_list := fun i => ((order[i]?).map d.algo_list).getD (d.algo_list i)
  ({ d with algo_list }, commaList ((List.range (max length 1)).map fun i => (algo_list i).algo_id))

/-- The message map gets the list of a message size where it is not the list before. -/
def Advisor.record (c : Configuration) (tempAlgoList : Text) (d : Advisor) : Advisor :=
  let put size text (d : Advisor) : Advisor :=
    { d with ppn_map := assign d.ppn_map c.procs_per_node c.geometry_size c.collective size text }
  let d := match d.currAlgoList with
    | none => put c.message_size tempAlgoList { d with currAlgoList := some tempAlgoList }
    | some _ => d
  let d := match d.currAlgoList with
    | none => d
    | some currAlgoList =>
      if currAlgoList ≠ tempAlgoList then
        put c.message_size tempAlgoList { put d.last_size currAlgoList d with currAlgoList := some tempAlgoList }
      else d
  { d with last_size := c.message_size }

/-- A text that does not fit into `tempAlgoList` overruns it. -/
def Advisor.record_list (c : Configuration) (tempAlgoList : Text) (d : Advisor) : Option Advisor :=
  if tempAlgoList.length < COLLSEL_MAX_ALGO * 2 then some (d.record c tempAlgoList) else none

/-- After an algorithm list was reloaded or measured. -/
def Advisor.conclude (P : Platform) (c : Configuration) (d : Advisor) : Option Advisor :=
  let sorted := d.sort_algo_list P (P.algorithms c).length
  sorted.1.record_list c sorted.2

/-- One round of the loop over the message sizes. A file that cannot be read ends the program. -/
def Advisor.message (P : Platform) (c : Configuration) (m : Measurement) (d : Advisor) : Option Advisor :=
  let measured := (d.measure P c m).conclude P c
  match d.files c with
  | none => measured
  | some file =>
    if file_check (some file) = .FILE_OK then
      (read_file.run' file).bind fun records => (d.reload c.collective 0 records).conclude P c
    else measured

/-- The nested loops: what happens at the begin of a round of each, at a message size, and after the last message size. -/
inductive Event
  | procs_per_node (ppn : ℕ)
  | geometry (ppn geo_size : ℕ)
  | collective (ppn geo_size coll_xfer_type : ℕ)
  | message (c : Configuration)
  | messages_done (ppn geo_size coll_xfer_type : ℕ)

def Advisor.step (P : Platform) (m : Measurement) : Event → Advisor → Option Advisor
  | .procs_per_node ppn, d => some { d with ppn_map := d.ppn_map.insert ppn (d.ppn_map.getD ppn ∅) }
  | .geometry ppn geo_size, d =>
    let geo_map := d.ppn_map.getD ppn ∅
    some { d with ppn_map := d.ppn_map.insert ppn (geo_map.insert geo_size (geo_map.getD geo_size ∅)) }
  | .collective ppn geo_size coll_xfer_type, d =>
    let geo_map := d.ppn_map.getD ppn ∅
    let coll_map := geo_map.getD geo_size ∅
    let coll_map := coll_map.insert coll_xfer_type (coll_map.getD coll_xfer_type ∅)
    some { d with currAlgoList := none, ppn_map := d.ppn_map.insert ppn (geo_map.insert geo_size coll_map) }
  | .message c, d => d.message P c m
  | .messages_done ppn geo_size coll_xfer_type, d =>
    some (match d.currAlgoList with
      | none => d
      | some list => { d with ppn_map := assign d.ppn_map ppn geo_size coll_xfer_type d.last_size list })

/-- The ids of the algorithms of a configuration, by the names that the table of the collective has so far. -/
def Platform.ids (P : Platform) (c : Configuration) (names : ℕ → NameTable) : List ℕ × NameTable :=
  (names c.collective).findAll ((P.algorithms c).map Algorithm.name)

/-- The ids of a message size fit into `tempAlgoList`, with a comma between them and the null character. -/
def Event.Fits (P : Platform) (names : ℕ → NameTable) : Event → Prop
  | .message c => (commaList (P.ids c names).1).length < COLLSEL_MAX_ALGO * 2
  | _ => True

def Event.names (P : Platform) (names : ℕ → NameTable) : Event → ℕ → NameTable
  | .message c => Function.update names c.collective (P.ids c names).2
  | _ => names

def Fitting (P : Platform) : List Event → (ℕ → NameTable) → Prop
  | [], _ => True
  | e :: es, names => e.Fits P names ∧ Fitting P es (e.names P names)

/-- What `generate` loops over. The message sizes are those up to the threshold of a collective and a geometry size. -/
structure AdvisorParams where
  procs_per_node : List ℕ
  geometry_sizes : List ℕ
  collectives : List ℕ
  act_msg_size : ℕ → ℕ → List ℕ

def AdvisorParams.generate (params : AdvisorParams) : List Event :=
  params.procs_per_node.flatMap fun ppn => .procs_per_node ppn ::
    params.geometry_sizes.flatMap fun geo_size => .geometry ppn geo_size ::
      params.collectives.flatMap fun coll_xfer_type => .collective ppn geo_size coll_xfer_type ::
        (((params.act_msg_size coll_xfer_type geo_size).map fun size =>
          .message ⟨ppn, geo_size, coll_xfer_type, size⟩) ++ [.messages_done ppn geo_size coll_xfer_type])

/-- A run of `generate`, up to where it is interrupted. The measurements are numbered from the end. -/
def Advisor.run (P : Platform) (m : ℕ → Measurement) : List Event → Advisor → Option Advisor
  | [], d => some d
  | e :: es, d => (d.step P (m es.length) e).bind (run P m es)

/-- When `generate` starts there is nothing in the tables; the array is not initialised. -/
def Advisor.start (algo_list : ℕ → SortedList) (files : Configuration → Option Text) : Advisor where
  names := fun _ => ⟨[], 0⟩
  algo_map := fun _ => ∅
  algo_list := algo_list
  files := files
  currAlgoList := none
  last_size := 0
  ppn_map := ∅

end PAMI.Collsel
