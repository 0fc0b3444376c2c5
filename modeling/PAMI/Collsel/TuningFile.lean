import Mathlib
import PAMI.Math.CommaList

namespace PAMI.Collsel

open Std

/-- A C string. -/
abbrev Text := List Char

abbrev AlgoMap := ExtTreeMap ℕ Text

abbrev MessageSizeMap (α : Type) := ExtTreeMap ℕ α

abbrev CollectivesMap (α : Type) := ExtTreeMap ℕ (MessageSizeMap α)

abbrev GeometrySizeMap (α : Type) := ExtTreeMap ℕ (CollectivesMap α)

/-- The selection data: by processes per node, geometry size, collective and message size. An algorithm list is a text with
commas when it is generated, and an array of bytes when it was read. -/
abbrev GeometryShapeMap (α : Type) := ExtTreeMap ℕ (GeometrySizeMap α)

def PAMI_XFER_COUNT : ℕ := 22

structure CollselData where
  collsel_map : GeometryShapeMap (List ℕ)
  algo_map : ℕ → AlgoMap

/-- An element of a document, as the tree of `rapidxml` has it. -/
inductive XmlNode
  | null
  | node (name : String) (value : Text) (first_node next_sibling : XmlNode)

section Writer

def PAMI_TUNE_TAG : String := "pami_tune"
def PAMI_ENV_TAG : String := "pami_environment"
def COLLSEL_TAG : String := "collective_selection"
def VERSION_TAG : String := "version"
def COLLECTIVES_TAG : String := "collectives"
def COLLECTIVE_TAG : String := "collective"
def COLLECTIVE_ID_TAG : String := "collective_id"
def ALGO_TAG : String := "algorithm"
def ALGO_ID_TAG : String := "id"
def ALGO_NAME_TAG : String := "name"
def GEOMETRIES_TAG : String := "geometries"
def PPN_TAG : String := "ppn"
def GEOMETRY_TAG : String := "geometry"
def GEOMETRY_SIZE_TAG : String := "geometry_size"
def COLL_TAG : String := "coll"
def COLL_ID_TAG : String := "coll_id"
def MESSAGE_TAG : String := "message"
def SIZE_MIN_TAG : String := "size_min"
def SIZE_MAX_TAG : String := "size_max"
def ALGORITHMS_TAG : String := "algorithms"

def STR_MAX_SZ : ℕ := 16

/-- `snprintf` of a number into `tmp_str`, which keeps one character for the end of the string. -/
def number (n : ℕ) : Text := (Nat.toDigits 10 n).take (STR_MAX_SZ - 1)

def XmlNode.text (name : String) (value : Text) (next : XmlNode) : XmlNode := .node name value .null next

def elements {α : Type} (tag : String) (children : α → XmlNode) (entries : List α) (next : XmlNode) : XmlNode :=
  entries.foldr (fun e next => .node tag [] (children e) next) next

def append_algorithm (e : ℕ × Text) : XmlNode := .text ALGO_ID_TAG (number e.1) (.text ALGO_NAME_TAG e.2 .null)

def append_algo_map_data (algo_map : ℕ → AlgoMap) : XmlNode := elements COLLECTIVE_TAG
    (fun i => .text COLLECTIVE_ID_TAG (number i) (elements ALGO_TAG append_algorithm (algo_map i).toList .null))
    ((List.range PAMI_XFER_COUNT).filter fun i => (algo_map i).toList ≠ []) .null

def append_message (size_min size_max : ℕ) (algolist : Text) : XmlNode :=
  .text SIZE_MIN_TAG (number size_min) (.text SIZE_MAX_TAG (number size_max) (.text ALGORITHMS_TAG algolist .null))

/-- Two neighbours with the same list become one element. -/
def append_message_data : List (ℕ × Text) → XmlNode
  | [] => .null
  | [(a, t)] => .node MESSAGE_TAG [] (append_message a a t) .null
  | (a, t) :: (b, u) :: rest =>
    if t = u then .node MESSAGE_TAG [] (append_message a b u) (append_message_data rest)
    else .node MESSAGE_TAG [] (append_message a a t) (append_message_data ((b, u) :: rest))

def append_collective_data (e : ℕ × CollectivesMap Text) : XmlNode :=
  .text GEOMETRY_SIZE_TAG (number e.1) (elements COLL_TAG
    (fun e => .text COLL_ID_TAG (number e.1) (append_message_data e.2.toList)) e.2.toList .null)

def append_geometry_data (e : ℕ × GeometrySizeMap Text) : XmlNode :=
  .text PPN_TAG (number e.1) (elements GEOMETRY_TAG append_collective_data e.2.toList .null)

def append_ppn_data (collsel_map : GeometryShapeMap Text) : XmlNode :=
  elements GEOMETRIES_TAG append_geometry_data collsel_map.toList .null

/-- The root of the document; `environment` is the text of the environment variables. -/
def document (environment : Text) (algo_map : ℕ → AlgoMap) (collsel_map : GeometryShapeMap Text) : XmlNode :=
  .node PAMI_TUNE_TAG [] (.text PAMI_ENV_TAG environment (.node COLLSEL_TAG []
    (.text VERSION_TAG "1.0".toList (.node COLLECTIVES_TAG [] (append_algo_map_data algo_map)
      (append_ppn_data collsel_map))) .null)) .null

/-- `write_children`, with `write_element` for each child. -/
def write_children : XmlNode → Text
  | .null => []
  | .node name value first_node next_sibling =>
    let inside := match first_node with
      | .null => value
      | .node .. => '\n' :: write_children first_node
    let element := if inside = [] then '<' :: (name ++ "/>").toList
      else '<' :: (name ++ ">").toList ++ inside ++ ("</" ++ name ++ ">").toList
    element ++ '\n' :: write_children next_sibling

def write_xml (environment : Text) (algo_map : ℕ → AlgoMap) (collsel_map : GeometryShapeMap Text) : Text :=
  "<?xml version=\"1.0\" encoding=\"utf-8\"?>\n".toList ++
    write_children (document environment algo_map collsel_map) ++ "\n".toList

end Writer

section Reader

/-- A number that ends the string; it is limited as that of `strtoul` is. -/
def strtoul (value : Text) : Option ℕ :=
  if value ≠ [] ∧ value.all Char.isDigit then some (min (Nat.ofDigitChars 10 value 0) (2 ^ 64 - 1)) else none

/-- The number as an `unsigned`. -/
def toUnsigned (value : Text) : Option ℕ := (strtoul value).map (· % 2 ^ 32)

/-- A loop over siblings, which an invalid one ends. -/
def XmlNode.loop {σ : Type} (body : XmlNode → σ → Except σ σ) : XmlNode → σ → Except σ σ
  | .null, s => .ok s
  | .node _ _ first_node next_sibling, s => (body first_node s).bind (loop body next_sibling)

/-- The first child has a number, and the rest is read for it. -/
def XmlNode.numbered {σ : Type} (read : Text → Option ℕ) (body : ℕ → XmlNode → σ → Except σ σ) :
    XmlNode → σ → Except σ σ
  | .null, s => .error s
  | .node _ value _ next_sibling, s =>
    match read value with
    | none => .error s
    | some n => body n next_sibling s

/-- A collective, which has to be in the tables. -/
def toCollective (value : Text) : Option ℕ := (toUnsigned value).filter (· < PAMI_XFER_COUNT)

open XmlNode

def parse_algorithm (coll_id : ℕ) : XmlNode → CollselData → Except CollselData CollselData :=
  numbered toUnsigned fun algo_id tmp_node d =>
    match tmp_node with
    | .null => .error d
    | .node _ value _ _ =>
      .ok { d with algo_map :=
        Function.update d.algo_map coll_id ((d.algo_map coll_id).insert algo_id value) }

def parse_algorithm_mapping (collectives : XmlNode) (d : CollselData) : Except CollselData CollselData :=
  collectives.loop (numbered toCollective fun coll_id => loop (parse_algorithm coll_id)) d

/-- A character of a number, as `unsigned char`. -/
def digit (val : ℕ) (c : Char) : ℕ := (10 * val + c.toNat + 256 - 48) % 256

/-- `to_numeric`, into an array of a given size. -/
def to_numeric (size : ℕ) (algo : Text) : Option (List ℕ) :=
  let nalgo := Math.commaValues digit 0 algo
  if nalgo.length < size then some (nalgo.length % 256 :: nalgo) else none

/-- `collsel_data[ppn][geo_size][coll_id][size] = algo_list`. -/
def assign {α : Type} (store : GeometryShapeMap α) (ppn geo_size coll_id size : ℕ) (algo_list : α) :
    GeometryShapeMap α :=
  let geo_map := store.getD ppn ∅
  let coll_map := geo_map.getD geo_size ∅
  let msg_map := coll_map.getD coll_id ∅
  store.insert ppn (geo_map.insert geo_size (coll_map.insert coll_id (msg_map.insert size algo_list)))

def parse_message (ppn geo_size coll_id : ℕ) : XmlNode → CollselData → Except CollselData CollselData :=
  numbered strtoul fun size_min => numbered strtoul fun size_max tmp_node d =>
    match tmp_node with
    | .null => .error d
    | .node _ value _ _ =>
      match to_numeric ((value.length + 1) / 2 + 1) value with
      | none => .error d
      | some algo_list =>
        let collsel_data := assign d.collsel_map ppn geo_size coll_id size_min algo_list
        .ok { d with collsel_map := assign collsel_data ppn geo_size coll_id size_max algo_list }

def parse_collective_selection_data (geometries : XmlNode) (d : CollselData) : Except CollselData CollselData :=
  geometries.numbered toUnsigned (fun ppn => loop (numbered toUnsigned fun geo_size =>
      loop (numbered toCollective fun coll_id => loop (parse_message ppn geo_size coll_id)))) d

/-- The loop of `read_xml_node` over siblings, with `read_xml_node` for each. After a table it goes over the siblings, which
the loop then does once more. -/
def read_xml_nodes : XmlNode → CollselData → CollselData
  | .null, d => d
  | .node name _ first_node next_sibling, d =>
    let d :=
      if name = COLLECTIVES_TAG then
        match parse_algorithm_mapping first_node d with
        | .error d => d
        | .ok d => read_xml_nodes next_sibling d
      else if name = GEOMETRIES_TAG then
        match parse_collective_selection_data first_node d with
        | .error d => d
        | .ok d => read_xml_nodes next_sibling d
      else read_xml_nodes first_node d
    read_xml_nodes next_sibling d

/-- `read_xml`, with the parser of `rapidxml`. -/
def read_xml (parse : Text → Option XmlNode) (file : Text) (d : CollselData) : Option CollselData :=
  (parse file).map fun doc => read_xml_nodes doc d

end Reader

end PAMI.Collsel
