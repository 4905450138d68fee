import BonsaiNinja.Idg.TransformRows
import BonsaiNinja.Library.Folds

namespace BonsaiNinja.Idg
open Library
variable {transforms : List CompactSymbolicTransform}

def transformRunRows : Nat := 100000

def transformReadRows : Nat := 1024

structure SymbolicTransformSpool where
  file : List UInt8
  writeOffset : Nat
  runs : List RunEntry
  buffer : List SymbolicTransformRunRow
  nextOrdinal : U64

namespace SymbolicTransformSpool

def new : SymbolicTransformSpool := ⟨[],0,[],[],0⟩

def flush (spool : SymbolicTransformSpool) : SymbolicTransformSpool :=
  if spool.buffer.isEmpty then spool
  else
    let rows := sortUnstable spool.buffer
    let payload := wire rows
    { spool with
      file := ExternalSorter.writeAt spool.file spool.writeOffset payload
      runs := spool.runs ++ [⟨spool.writeOffset,rows.length⟩]
      writeOffset := spool.writeOffset + payload.length
      buffer := [] }

-- Numbers are checked: past the last word the push aborts.
def checkedNext (n : U64) : Option U64 := if fits : n.val + 1 < 2 ^ 64 then some ⟨n.val + 1,fits⟩ else none

def push (spool : SymbolicTransformSpool) (transform : CompactSymbolicTransform) : Option SymbolicTransformSpool := do
  let row := ⟨transform.source,spool.nextOrdinal,encodeSymbolicTransform transform⟩
  let nextOrdinal ← checkedNext spool.nextOrdinal
  let spool := { spool with buffer := spool.buffer ++ [row], nextOrdinal := nextOrdinal }
  return if spool.buffer.length = transformRunRows then spool.flush else spool

def finish (memoryLimit : Option Nat) (spool : SymbolicTransformSpool) : Option (List CompactSymbolicTransform) := do
  let spool := spool.flush
  let pageRows := mergePageRows memoryLimit spool.runs.length (width SymbolicTransformRunRow) transformReadRows
  let merger : RunMerger SymbolicTransformRunRow ← RunMerger.new spool.file pageRows spool.runs
  let rows ← merger.drain spool.file (spool.runs.map (·.count)).sum
  rows.mapM fun row => decodeSymbolicTransform row.transform row.source

end SymbolicTransformSpool

def numbered (transform : CompactSymbolicTransform × Nat) : SymbolicTransformRunRow :=
  ⟨transform.1.source,Fin.ofNat (2 ^ 64) transform.2,encodeSymbolicTransform transform.1⟩

def numberedRows (transforms : List CompactSymbolicTransform) : List SymbolicTransformRunRow :=
  transforms.zipIdx.map numbered

def SymbolicTransformRunRow.read (row : SymbolicTransformRunRow) : Option CompactSymbolicTransform :=
  decodeSymbolicTransform row.transform row.source

theorem read_numbered (transform : CompactSymbolicTransform × Nat) : (numbered transform).read = some transform.1 :=
  decode_encode_transform transform.1

theorem numberedRows_snoc (transforms : List CompactSymbolicTransform) (transform : CompactSymbolicTransform) :
    numberedRows (transforms ++ [transform]) = numberedRows transforms ++ [numbered (transform,transforms.length)] := by
  rw [numberedRows,List.zipIdx_append,List.map_append,Nat.zero_add]
  rfl

theorem numberedRows_read (transforms : List CompactSymbolicTransform) :
    (numberedRows transforms).filterMap SymbolicTransformRunRow.read = transforms := by
  have back : SymbolicTransformRunRow.read ∘ numbered = some ∘ Prod.fst := funext read_numbered
  rw [numberedRows,List.filterMap_map,back,List.filterMap_eq_map,List.zipIdx_map_fst]

theorem numberedRows_ascend (few : transforms.length ≤ 2 ^ 64) :
    (numberedRows transforms).Pairwise fun a b => a.ordinal.val < b.ordinal.val := by
  refine List.pairwise_iff_getElem.mpr fun i j inside other lower => ?_
  have short : j < transforms.length := by simpa [numberedRows] using other
  have place : ∀ k < transforms.length, (Fin.ofNat (2 ^ 64) k).val = k := fun k below => Nat.mod_eq_of_lt (by omega)
  simp only [numberedRows,numbered,List.getElem_map,List.getElem_zipIdx,Nat.zero_add]
  rw [place i (by omega),place j short]
  exact lower

theorem numberedRows_nodup (few : transforms.length ≤ 2 ^ 64) :
    (numberedRows transforms).Nodup := by
  refine (numberedRows_ascend few).imp fun lower same => ?_
  rw [same] at lower
  exact absurd lower (Nat.lt_irrefl _)

-- Among rows of one source the visiting order is the sorted one.
theorem numberedRows_source_sorted (few : transforms.length ≤ 2 ^ 64) (source : U32) :
    Sorted ((numberedRows transforms).filter fun row => row.source = source) := by
  refine List.Pairwise.imp_of_mem ?_ ((numberedRows_ascend few).filter _)
  intro a b member other lower
  have apart : a.ordinal ≠ b.ordinal := fun same => absurd lower (by rw [same]; exact Nat.lt_irrefl _)
  have here := of_decide_eq_true (List.mem_filter.mp member).2
  have there := of_decide_eq_true (List.mem_filter.mp other).2
  rw [SymbolicTransformRunRow.before_iff apart,here,there]
  show (before source source || (decide (source = source) && decide (a.ordinal.val < b.ordinal.val))) = true
  rw [decide_eq_true lower,decide_eq_true rfl,Bool.and_self,Bool.or_true]

theorem source_not_after {a b : SymbolicTransformRunRow} (lower : before a b = true) : before b.source a.source = false := by
  cases upper : before b.source a.source with
  | false => rfl
  | true =>
    have later : before b a = true := by
      show ((before b.source a.source || _) || _) = true
      rw [upper,Bool.true_or,Bool.true_or]
    rw [before_asymm lower] at later
    cases later

structure SymbolicTransformSpool.Spooled (spool : SymbolicTransformSpool) (pushed : List CompactSymbolicTransform) : Prop where
  runs : ∃ contents, List.Forall₂ (RunEntry.At spool.file) spool.runs contents ∧ (∀ rows ∈ contents, Sorted rows) ∧
    (contents.flatten ++ spool.buffer).Perm (numberedRows pushed)
  offset : spool.writeOffset = spool.file.length
  ordinal : spool.nextOrdinal.val = pushed.length

namespace SymbolicTransformSpool
variable {spool : SymbolicTransformSpool} {pushed : List CompactSymbolicTransform}

theorem new_spooled : new.Spooled [] :=
  ⟨⟨[],.nil,fun _ member => absurd member List.not_mem_nil,.refl _⟩,rfl,rfl⟩

theorem flush_spooled (spooled : spool.Spooled pushed) :
    spool.flush.Spooled pushed ∧ spool.flush.buffer = [] := by
  obtain ⟨⟨contents,stored,sorted,perm⟩,offset,ordinal⟩ := spooled
  have few : pushed.length ≤ 2 ^ 64 := by
    have bound := spool.nextOrdinal.isLt
    omega
  unfold flush
  by_cases empty : spool.buffer = []
  · rw [if_pos (by rw [empty]; rfl)]
    exact ⟨⟨⟨contents,stored,sorted,perm⟩,offset,ordinal⟩,empty⟩
  · rw [if_neg (by simpa using empty)]
    have written : ExternalSorter.writeAt spool.file spool.writeOffset (wire (sortUnstable spool.buffer)) =
        spool.file ++ wire (sortUnstable spool.buffer) := by
      rw [ExternalSorter.writeAt,offset,List.take_length,List.drop_eq_nil_of_le (Nat.le_add_right _ _),List.append_nil]
    have distinct : spool.buffer.Nodup :=
      (perm.nodup_iff.mpr (numberedRows_nodup few)).sublist (List.sublist_append_right _ _)
    refine ⟨⟨⟨contents ++ [sortUnstable spool.buffer],?_,fun rows member => ?_,?_⟩,?_,ordinal⟩,rfl⟩
    · simp only [written]
      refine List.rel_append (stored.imp fun _ _ at_run => ExternalSorter.at_append at_run) (.cons ⟨rfl,?_,[],?_⟩ .nil)
      · rw [List.length_append,offset]
        exact Nat.le_add_right _ _
      · rw [List.append_nil,offset,List.drop_left]
    · cases List.mem_append.mp member with
      | inl earlier => exact sorted rows earlier
      | inr last => exact List.mem_singleton.mp last ▸ sortUnstable_sorted distinct
    · rw [List.append_nil,List.flatten_append,List.flatten_singleton]
      exact ((List.mergeSort_perm spool.buffer _).append_left _).trans perm
    · show spool.writeOffset + (wire (sortUnstable spool.buffer)).length =
        (ExternalSorter.writeAt spool.file spool.writeOffset (wire (sortUnstable spool.buffer))).length
      rw [written,List.length_append,← offset]

theorem checkedNext_exact {n following : U64} (ran : checkedNext n = some following) : following.val = n.val + 1 := by
  unfold checkedNext at ran
  split at ran
  · cases ran
    rfl
  · cases ran

theorem push_spooled {spool' : SymbolicTransformSpool}
    (spooled : spool.Spooled pushed) {transform : CompactSymbolicTransform} (ran : spool.push transform = some spool') :
    spool'.Spooled (pushed ++ [transform]) := by
  obtain ⟨following,counted,same⟩ := Option.bind_eq_some_iff.mp ran
  have row : (⟨transform.source,spool.nextOrdinal,encodeSymbolicTransform transform⟩ : SymbolicTransformRunRow) =
      numbered (transform,pushed.length) := by
    have ordinal : spool.nextOrdinal = Fin.ofNat (2 ^ 64) pushed.length := by
      have bound := spool.nextOrdinal.isLt
      refine Fin.ext ?_
      rw [← spooled.ordinal]
      exact (Nat.mod_eq_of_lt bound).symm
    rw [ordinal]
    rfl
  have appended : SymbolicTransformSpool.Spooled
      { spool with
        buffer := spool.buffer ++ [⟨transform.source,spool.nextOrdinal,encodeSymbolicTransform transform⟩]
        nextOrdinal := following } (pushed ++ [transform]) := by
    obtain ⟨⟨contents,stored,sorted,perm⟩,offset,ordinal⟩ := spooled
    refine ⟨⟨contents,stored,sorted,?_⟩,offset,?_⟩
    · rw [numberedRows_snoc,row]
      simp only []
      rw [← List.append_assoc]
      exact perm.append_right _
    · rw [checkedNext_exact counted,ordinal,List.length_append]
      rfl
  rw [← Option.some.inj same]
  split
  · exact (flush_spooled appended).1
  · exact appended

theorem push_total (room : spool.nextOrdinal.val + 1 < 2 ^ 64)
    (transform : CompactSymbolicTransform) : ∃ spool', spool.push transform = some spool' := by
  unfold push checkedNext
  rw [dif_pos room]
  exact ⟨_,rfl⟩

theorem read_source {row : SymbolicTransformRunRow} {transform : CompactSymbolicTransform} (read : row.read = some transform) :
    transform.source = row.source := by
  obtain ⟨callKind,_,read⟩ := Option.bind_eq_some_iff.mp read
  obtain ⟨kind,_,read⟩ := Option.bind_eq_some_iff.mp read
  rw [← Option.some.inj read]

theorem read_filter (rows : List SymbolicTransformRunRow) (source : U32) :
    ((rows.filterMap SymbolicTransformRunRow.read).filter fun transform => transform.source = source) =
      (rows.filter fun row => row.source = source).filterMap SymbolicTransformRunRow.read := by
  rw [List.filter_filterMap,List.filterMap_filter]
  refine List.filterMap_congr fun row _ => ?_
  cases read : row.read with
  | none => simp
  | some transform =>
    have same := read_source read
    by_cases here : row.source = source
    · rw [decide_eq_true here,Option.filter_some,same,decide_eq_true here]
    · rw [decide_eq_false here,Option.filter_some,same,decide_eq_false here]

theorem finish_exact (spooled : spool.Spooled pushed)
    (memoryLimit : Option Nat) :
    ∃ out, spool.finish memoryLimit = some out ∧ Buckets.KeyOrdered CompactSymbolicTransform.source out ∧ out.Perm pushed ∧
      ∀ source, (out.filter fun transform => transform.source = source) =
        pushed.filter fun transform => transform.source = source := by
  obtain ⟨⟨⟨contents,stored,sorted,perm⟩,offset,ordinal⟩,emptied⟩ := flush_spooled spooled
  have few : pushed.length ≤ 2 ^ 64 := by
    have bound := spool.flush.nextOrdinal.isLt
    omega
  rw [emptied,List.append_nil] at perm
  have pages := mergePageRows_pos memoryLimit spool.flush.runs.length (width SymbolicTransformRunRow) transformReadRows
  obtain ⟨merger,rows,opened,drained,ordered,members,counted⟩ := RunMerger.merge_runs pages stored sorted
  have held : rows.Perm (numberedRows pushed) := by
    have distinct := perm.nodup_iff.mpr (numberedRows_nodup few)
    have within : contents.flatten ⊆ rows := fun row member => (members row).mpr (List.mem_flatten.mp member)
    have short : rows.length ≤ contents.flatten.length := by rw [counted,RunEntry.counts_exact stored]
    exact ((List.subperm_of_subset distinct within).perm_of_length_le short).symm.trans perm
  have ascending : Sorted rows := by
    have apart : rows.Nodup := held.nodup_iff.mpr (numberedRows_nodup few)
    exact (ordered.and apart).imp fun both => before_of_ne both.2 both.1
  have readable : ∀ row ∈ rows, row.read.isSome = true := by
    intro row member
    obtain ⟨transform,_,rfl⟩ := List.mem_map.mp (held.mem_iff.mp member)
    rw [read_numbered]
    rfl
  refine ⟨rows.filterMap SymbolicTransformRunRow.read,?_,?_,?_,fun source => ?_⟩
  · unfold finish
    simp only [opened,drained,Option.bind_eq_bind,Option.bind_some]
    exact mapM_filterMap readable
  · refine List.pairwise_filterMap.mpr (ascending.imp fun lower a first b second => ?_)
    rw [read_source first,read_source second]
    exact source_not_after lower
  · rw [← numberedRows_read pushed]
    exact held.filterMap _
  · have same : (rows.filter fun row => row.source = source) = (numberedRows pushed).filter fun row => row.source = source := by
      refine Sorted.ext (ascending.filter _) (numberedRows_source_sorted few source) fun row => ?_
      rw [List.mem_filter,List.mem_filter,held.mem_iff]
    rw [read_filter,same,← read_filter,numberedRows_read]

end SymbolicTransformSpool

end BonsaiNinja.Idg
