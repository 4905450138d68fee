import BonsaiNinja.Idg.ExternalSorting
import BonsaiNinja.Idg.SymbolicRuntime
import BonsaiNinja.Library.Buckets
import BonsaiNinja.Library.Decoding

namespace BonsaiNinja.Idg
open Library

abbrev U8 := Fin (2 ^ 8)
abbrev U32 := Fin (2 ^ 32)
abbrev U64 := Fin (2 ^ 64)

instance u8_neZero : NeZero (2 ^ 8) := ⟨by decide⟩
instance u32_neZero : NeZero (2 ^ 32) := ⟨by decide⟩
instance u64_neZero : NeZero (2 ^ 64) := ⟨by decide⟩

instance : RowOrder (Fin n) := .lift Fin.val fun _ _ => Fin.ext

def leFin (bits : Nat) (bytes : List UInt8) : Fin (2 ^ bits) := Fin.ofNat (2 ^ bits) (leValue bytes)

structure FactSourceRecord where
  key : U64
  node : U32
  deriving DecidableEq, Repr

structure ReverseScalarRecord where
  target : U32
  file : U32
  start : U64
  stop : U64
  source : U32
  exactField : U32
  deriving DecidableEq, Repr

structure ReverseSymbolicRecord where
  target : U32
  source : U32
  kind : U8
  deriving DecidableEq, Repr

-- Fields compare in the order they are declared in.
instance : RowOrder FactSourceRecord := .lift (fun row => (row.key,row.node)) fun a b same => by
  cases a; cases b; simp_all

instance : RowOrder ReverseScalarRecord :=
  .lift (fun row => (row.target,row.file,row.start,row.stop,row.source,row.exactField)) fun a b same => by
    cases a; cases b; simp_all

instance : RowOrder ReverseSymbolicRecord := .lift (fun row => (row.target,row.source,row.kind)) fun a b same => by
  cases a; cases b; simp_all

theorem leFin_leBytes {bits width : Nat} (whole : 256 ^ width = 2 ^ bits) (value : Fin (2 ^ bits)) :
    leFin bits (leBytes width value.val) = value := by
  have read : leValue (leBytes width value.val) = value.val := leValue_leBytes (by rw [whole]; exact value.isLt)
  rw [leFin,read]
  exact Fin.ext (Nat.mod_eq_of_lt value.isLt)

theorem slice_front (field back : List UInt8) : slice (field ++ back) 0 field.length = field := by
  rw [slice,List.drop_zero,Nat.sub_zero,List.take_left]

theorem slice_behind {front : List UInt8} (back : List UInt8) {start : Nat} (length : front.length = start) (stop : Nat) :
    slice (front ++ back) start stop = slice back 0 (stop - start) := by
  subst length
  rw [slice,slice,List.drop_left,List.drop_zero,Nat.sub_zero]

-- A word inside a record, read from its bytes.
theorem word_at (width bits : Nat) (whole : 256 ^ width = 2 ^ bits) (front back : List UInt8) (value : Fin (2 ^ bits))
    (start stop : Nat) (starts : front.length = start) (stops : start + width = stop) :
    leFin bits (slice (front ++ (leBytes width value.val ++ back)) start stop) = value := by
  rw [slice_behind _ starts,show stop - start = (leBytes width value.val).length by rw [leBytes_length]; omega,slice_front,
    leFin_leBytes whole]

instance : ExternalRecord FactSourceRecord where
  width := 12
  encode row := leBytes 8 row.key ++ (leBytes 4 row.node ++ [])
  decode record := ⟨leFin 64 (slice record 0 8),leFin 32 (slice record 8 12)⟩
  positive := by decide
  sized row := by simp
  inverse row := by
    have key := word_at 8 64 (by decide) [] (leBytes 4 row.node ++ []) row.key 0 8 rfl rfl
    have node := word_at 4 32 (by decide) (leBytes 8 row.key) [] row.node 8 12 (by simp) rfl
    rw [List.nil_append] at key
    rw [key,node]

instance : ExternalRecord ReverseSymbolicRecord where
  width := 9
  encode row := leBytes 4 row.target ++ (leBytes 4 row.source ++ (leBytes 1 row.kind ++ []))
  decode record := ⟨leFin 32 (slice record 0 4),leFin 32 (slice record 4 8),leFin 8 (slice record 8 9)⟩
  positive := by decide
  sized row := by simp
  inverse row := by
    have target := word_at 4 32 (by decide) [] (leBytes 4 row.source ++ (leBytes 1 row.kind ++ [])) row.target 0 4 rfl rfl
    have source := word_at 4 32 (by decide) (leBytes 4 row.target) (leBytes 1 row.kind ++ []) row.source 4 8 (by simp) rfl
    have kind := word_at 1 8 (by decide) (leBytes 4 row.target ++ leBytes 4 row.source) [] row.kind 8 9 (by simp) rfl
    rw [List.nil_append] at target
    rw [List.append_assoc] at kind
    rw [target,source,kind]

instance : ExternalRecord ReverseScalarRecord where
  width := 32
  encode row := leBytes 4 row.target ++ (leBytes 4 row.file ++ (leBytes 8 row.start ++ (leBytes 8 row.stop ++
    (leBytes 4 row.source ++ (leBytes 4 row.exactField ++ [])))))
  decode record := ⟨leFin 32 (slice record 0 4),leFin 32 (slice record 4 8),leFin 64 (slice record 8 16),
    leFin 64 (slice record 16 24),leFin 32 (slice record 24 28),leFin 32 (slice record 28 32)⟩
  positive := by decide
  sized row := by simp
  inverse row := by
    have target := word_at 4 32 (by decide) [] (leBytes 4 row.file ++ (leBytes 8 row.start ++ (leBytes 8 row.stop ++
      (leBytes 4 row.source ++ (leBytes 4 row.exactField ++ []))))) row.target 0 4 rfl rfl
    have file := word_at 4 32 (by decide) (leBytes 4 row.target) (leBytes 8 row.start ++ (leBytes 8 row.stop ++
      (leBytes 4 row.source ++ (leBytes 4 row.exactField ++ [])))) row.file 4 8 (by simp) rfl
    have start := word_at 8 64 (by decide) (leBytes 4 row.target ++ leBytes 4 row.file) (leBytes 8 row.stop ++
      (leBytes 4 row.source ++ (leBytes 4 row.exactField ++ []))) row.start 8 16 (by simp) rfl
    have stop := word_at 8 64 (by decide) (leBytes 4 row.target ++ leBytes 4 row.file ++ leBytes 8 row.start)
      (leBytes 4 row.source ++ (leBytes 4 row.exactField ++ [])) row.stop 16 24 (by simp) rfl
    have source := word_at 4 32 (by decide) (leBytes 4 row.target ++ leBytes 4 row.file ++ leBytes 8 row.start ++
      leBytes 8 row.stop) (leBytes 4 row.exactField ++ []) row.source 24 28 (by simp) rfl
    have exactField := word_at 4 32 (by decide) (leBytes 4 row.target ++ leBytes 4 row.file ++ leBytes 8 row.start ++
      leBytes 8 row.stop ++ leBytes 4 row.source) [] row.exactField 28 32 (by simp) rfl
    rw [List.nil_append] at target
    simp only [List.append_assoc] at start stop source exactField
    rw [target,file,start,stop,source,exactField]

def spooled [ExternalRecord R] [DecidableEq R] (runRows : Nat) (pushed : List R) : ExternalSorter R :=
  pushed.foldl ExternalSorter.push (ExternalSorter.new runRows)

def factSourceSpool (pushed : List (U64 × U32)) : ExternalSorter FactSourceRecord :=
  spooled 131072 (pushed.map fun row => ⟨row.1,row.2⟩)

def reverseScalarSpool (pushed : List ReverseScalarRecord) : ExternalSorter ReverseScalarRecord := spooled 100000 pushed

structure FactSourceIndex where
  relation : SortedExternalRelation FactSourceRecord

namespace FactSourceIndex

def u64Max : U64 := Fin.last _

def u32Max : U32 := Fin.last _

def keyEnd (index : FactSourceIndex) (key : U64) : Option Nat :=
  if key = u64Max then some index.relation.len else index.relation.lowerBound ⟨key + 1,0⟩

def visitKey (index : FactSourceIndex) (key : U64) (visit : σ → U32 → σ) (s : σ) : Option σ := do
  let start ← index.relation.lowerBound ⟨key,0⟩
  let stop ← index.keyEnd key
  index.relation.visitRange start stop (fun s row => visit s row.node) s

def highWord (base : U32) : U64 := Fin.ofNat (2 ^ 64) (base.val * 2 ^ 32)

def baseEnd (index : FactSourceIndex) (base : U32) : Option Nat :=
  if base = u32Max then some index.relation.len else index.relation.lowerBound ⟨highWord (base + 1),0⟩

def visitBase (index : FactSourceIndex) (base : U32) (visit : σ → U32 → σ) (s : σ) : Option σ := do
  let start ← index.relation.lowerBound ⟨highWord base,0⟩
  let stop ← index.baseEnd base
  index.relation.visitRange start stop (fun s row => visit s row.node) s

end FactSourceIndex

structure ReverseScalarTransformIndex where
  relation : SortedExternalRelation ReverseScalarRecord

def ReverseScalarTransformIndex.visitIncoming (index : ReverseScalarTransformIndex) (target file : U32) (start stop : U64)
    (visit : σ → U32 × U32 → σ) (s : σ) : Option σ := do
  let first ← index.relation.lowerBound ⟨target,file,start,stop,0,0⟩
  index.relation.visitWhile first (fun s row =>
    if row.target ≠ target ∨ (row.file,row.start,row.stop) ≠ (file,start,stop) then (s,false)
    else (visit s (row.source,row.exactField),true)) s

abbrev SymbolicRow := U32 × SymbolicFieldTransformKind

def kindByte (kind : SymbolicFieldTransformKind) : U8 := Fin.ofNat (2 ^ 8) kind.rank

-- Any other byte aborts.
def decodeKind (value : U8) : Option SymbolicFieldTransformKind :=
  match value.val with
  | 0 => some .argument
  | 1 => some .return
  | 2 => some .scalarReturn
  | 3 => some .constructorReturn
  | 4 => some .receiverMutation
  | 5 => some .copy
  | _ => none

def reverseSymbolicSpool (pushed : List (U32 × SymbolicRow)) : ExternalSorter ReverseSymbolicRecord :=
  spooled 131072 (pushed.map fun row => ⟨row.1,row.2.1,kindByte row.2.2⟩)

structure ReversePageCache where
  pages : List (U32 × List SymbolicRow)
  order : List U32
  capacity : Nat
  maxEntryRows : Nat

namespace ReversePageCache

def new (capacity byteBudget : Nat) : ReversePageCache :=
  ⟨[],[],max capacity 1,max (byteBudget / max capacity 1 / 8) 1⟩

-- The oldest pages go until the rest fits; without an order the loop would not end.
def evict (capacity : Nat) : List U32 → List (U32 × List SymbolicRow) → Option (List (U32 × List SymbolicRow) × List U32)
  | order, pages =>
    if pages.length ≤ capacity then some (pages,order)
    else
      match order with
      | [] => none
      | evicted :: order => evict capacity order (pages.filter (·.1 ≠ evicted))

def insert (cache : ReversePageCache) (target : U32) (rows : List SymbolicRow) : Option ReversePageCache :=
  if (cache.pages.lookup target).isSome then
    some { cache with pages := cache.pages.map fun page => if page.1 = target then (target,rows) else page }
  else do
    let (pages,order) ← evict cache.capacity (cache.order ++ [target]) (cache.pages ++ [(target,rows)])
    return { cache with pages := pages, order := order }

end ReversePageCache

structure ReverseSymbolicTransformIndex where
  relation : SortedExternalRelation ReverseSymbolicRecord
  cache : ReversePageCache

namespace ReverseSymbolicTransformIndex

def remember (maxEntryRows : Nat) (candidate : Option (List SymbolicRow)) (row : SymbolicRow) : Option (List SymbolicRow) :=
  candidate.bind fun rows => if rows.length < maxEntryRows then some (rows ++ [row]) else none

def visitRow (target : U32) (maxEntryRows : Nat) (visit : σ → SymbolicRow → σ) :
    Option (σ × Option (List SymbolicRow)) → ReverseSymbolicRecord → Option (σ × Option (List SymbolicRow)) × Bool
  | none, _ => (none,false)
  | some (s,candidate), row =>
    if row.target ≠ target then (some (s,candidate),false)
    else
      match decodeKind row.kind with
      | none => (none,false)
      | some kind => (some (visit s (row.source,kind),remember maxEntryRows candidate (row.source,kind)),true)

def visitIncoming (index : ReverseSymbolicTransformIndex) (target : U32) (visit : σ → SymbolicRow → σ) (s : σ) :
    Option (σ × ReverseSymbolicTransformIndex) :=
  match index.cache.pages.lookup target with
  | some rows => some (rows.foldl visit s,index)
  | none => do
    let start ← index.relation.lowerBound ⟨target,0,0⟩
    let visited ← index.relation.visitWhile start (visitRow target index.cache.maxEntryRows visit) (some (s,some []))
    let (s,candidate) ← visited
    match candidate with
    | none => return (s,index)
    | some rows =>
      let cache ← index.cache.insert target rows
      return (s,{ index with cache := cache })

def visitCalls : List U32 → ReverseSymbolicTransformIndex → Option (List (List SymbolicRow) × ReverseSymbolicTransformIndex)
  | [], index => some ([],index)
  | target :: rest, index => do
    let (rows,index) ← index.visitIncoming target (fun rows row => rows ++ [row]) []
    let (later,index) ← visitCalls rest index
    return (rows :: later,index)

end ReverseSymbolicTransformIndex

def finishReverseSymbolic (workers : Nat) (memoryLimit : Option Nat) (spool : ExternalSorter ReverseSymbolicRecord) :
    Option ReverseSymbolicTransformIndex := do
  let cacheBytes := match memoryLimit with
    | none => 2 * mib
    | some limit => max (64 * 1024) (min (limit / 1024) (8 * mib))
  let relation ← spool.finish memoryLimit
  return ⟨relation,ReversePageCache.new (max (workers * 2) 2) cacheBytes⟩

end BonsaiNinja.Idg
