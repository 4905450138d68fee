import BonsaiNinja.Common.QualifiedNames
import BonsaiNinja.Idg.FlowExits
import Mathlib.Data.Finset.Prod

namespace BonsaiNinja.Idg
open Names (CharClass isNameSegmentChar)

section
variable (table : CharClass)

def withoutSigils (name : Text) : Text := name.dropWhile fun c => !isNameSegmentChar table c

def canonicalPlace (name : Text) : Text := withoutSigils table (trim name)

def placesAbove : Text → Text → List Text
  | _, [] => []
  | before, c :: rest =>
    let here := if (c == '.' || c == '[') && !(trim before).isEmpty then [trim before] else []
    here ++ placesAbove (before ++ [c]) rest

def liesBelow (name base : Text) : Bool := base ∈ placesAbove [] (canonicalPlace table name)

def spellings (name : Text) : List Text :=
  let stripped := withoutSigils table name
  if stripped.isEmpty || stripped == name then [name] else [name,stripped]

def recorded (name : Text) (node : FlowNode) : WriterState := ((spellings table name).map fun spelling => (spelling,node)).toFinset

def survives (name : Text) (definition : Text × FlowNode) : Bool :=
  !(!(canonicalPlace table name).isEmpty && liesBelow table definition.1 (canonicalPlace table name)) &&
    definition.1 ∉ spellings table name

def commitWriter (state : WriterState) (name : Text) (node : FlowNode) : WriterState :=
  state.filter (fun definition => survives table name definition) ∪ recorded table name node

def appendWriter (state : WriterState) (name : Text) (node : FlowNode) : WriterState := state ∪ recorded table name node

def writersOf (state : WriterState) (name : Text) : Finset FlowNode :=
  (state.filter fun definition => definition.1 = name).image Prod.snd

abbrev FlowEdges := Finset (FlowNode × FlowNode)

-- The writers of the name, of its plain spelling, or of a complete value above it; the shared
-- read node stands for a name nobody wrote. `complete` finds the writers of a value above.
def bridgeRead (complete : WriterState → Text → Finset FlowNode) (state : WriterState) (name : Text) (consumer : FlowNode) :
    FlowEdges :=
  let exact := writersOf state name
  let plain := if exact = ∅ then ((spellings table name).map (writersOf state)).foldl (· ∪ ·) ∅ else exact
  let above := complete state name
  if plain ≠ ∅ then plain.image fun writer => (writer,consumer)
  else (above.image fun writer => (writer,consumer)) ∪ {(.read name,consumer)}

inductive WriteOp where
  | commit (name : Text) (node : FlowNode)
  | append (name : Text) (node : FlowNode)

def WriteOp.apply (state : WriterState) : WriteOp → WriterState
  | .commit name node => commitWriter table state name node
  | .append name node => appendWriter table state name node

inductive SourceOp where
  | read (name : Text) (consumer : FlowNode)
  | edge (source target : FlowNode)

inductive LeafOp where
  | source (op : SourceOp)
  | write (op : WriteOp)

end

variable {table : CharClass}

theorem mem_recorded {name : Text} {node : FlowNode} {definition : Text × FlowNode} :
    definition ∈ recorded table name node ↔ definition.1 ∈ spellings table name ∧ definition.2 = node := by
  rw [recorded,List.mem_toFinset,List.mem_map]
  constructor
  · intro found
    obtain ⟨spelling,member,rfl⟩ := found
    exact ⟨member,rfl⟩
  · intro both
    exact ⟨definition.1,both.1,by rw [← both.2]⟩

theorem recorded_self (name : Text) (node : FlowNode) : (name,node) ∈ recorded table name node := by
  rw [mem_recorded,spellings]
  split <;> exact ⟨List.mem_cons_self ..,rfl⟩

def WriteOp.adds (table : CharClass) : WriteOp → WriterState
  | .commit name node => recorded table name node
  | .append name node => recorded table name node

def WriteOp.keeps (table : CharClass) : WriteOp → Text × FlowNode → Bool
  | .commit name _, definition => survives table name definition
  | .append _ _, _ => true

theorem mem_apply {op : WriteOp} {state : WriterState} {definition : Text × FlowNode} :
    definition ∈ op.apply table state ↔ definition ∈ op.adds table ∨ definition ∈ state ∧ op.keeps table definition = true := by
  cases op with
  | commit name node =>
    rw [WriteOp.apply,commitWriter,Finset.mem_union,Finset.mem_filter,or_comm]
    rfl
  | append name node =>
    rw [WriteOp.apply,appendWriter,Finset.mem_union,or_comm]
    simp [WriteOp.adds,WriteOp.keeps]

theorem adds_nonempty (op : WriteOp) : (op.adds table).Nonempty := by
  cases op with
  | commit name node | append name node => exact ⟨_,recorded_self name node⟩

theorem bridgeRead_writers {complete : WriterState → Text → Finset FlowNode} {state : WriterState} {name : Text}
    {node consumer : FlowNode} (live : (name,node) ∈ state) : (node,consumer) ∈ bridgeRead table complete state name consumer := by
  have writer : node ∈ writersOf state name :=
    Finset.mem_image.mpr ⟨(name,node),Finset.mem_filter.mpr ⟨live,rfl⟩,rfl⟩
  have some : writersOf state name ≠ ∅ := Finset.ne_empty_of_mem writer
  simp only [bridgeRead,if_neg some,if_pos (show writersOf state name ≠ ∅ from some)]
  exact Finset.mem_image.mpr ⟨node,writer,rfl⟩

end BonsaiNinja.Idg
