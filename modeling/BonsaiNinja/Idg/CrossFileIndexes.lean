import BonsaiNinja.Idg.ReverseIndexes
import BonsaiNinja.Library.Collecting
import BonsaiNinja.Library.Postings

namespace BonsaiNinja.Idg
open Library

def U32.truncated (n : Nat) : U32 := ⟨n % 2 ^ 32,Nat.mod_lt _ (by decide)⟩

-- `none` when the conversion is refused.
def U32.tryFrom (n : Nat) : Option U32 := if fits : n < 2 ^ 32 then some ⟨n,fits⟩ else none

-- The canonical edges, with the positions of the edges of each segment as long as
-- the indexes are maintained.
structure CrossFileEdges where
  edges : List CrossFileEdge
  byFromSegment : IdMap (List U32)
  byToSegment : IdMap (List U32)
  maintainIndexes : Bool

namespace CrossFileEdges

def new : CrossFileEdges := ⟨[],∅,∅,true⟩

-- `none` is the overflow of the edge index.
def push (index : CrossFileEdges) (edge : CrossFileEdge) : Option CrossFileEdges :=
  if index.maintainIndexes then do
    let idx ← U32.tryFrom index.edges.length
    return {index with
      byFromSegment := upsert [] (· ++ [idx]) edge.fromSegment index.byFromSegment
      byToSegment := upsert [] (· ++ [idx]) edge.toSegment index.byToSegment
      edges := index.edges ++ [edge]}
  else some {index with edges := index.edges ++ [edge]}

def edgesAt (index : CrossFileEdges) (positions : IdMap (List U32)) (segment : SegmentId) : List CrossFileEdge :=
  ((positions.lookup segment).getD []).filterMap fun idx => index.edges[idx.val]?

def outgoingFromSegment (index : CrossFileEdges) (segment : SegmentId) : List CrossFileEdge :=
  if index.maintainIndexes then index.edgesAt index.byFromSegment segment
  else index.edges.filter (·.fromSegment = segment)

def incomingToSegment (index : CrossFileEdges) (segment : SegmentId) : List CrossFileEdge :=
  if index.maintainIndexes then index.edgesAt index.byToSegment segment
  else index.edges.filter (·.toSegment = segment)

-- Positions are stored as they fit the word.
def rebuildIndexes (index : CrossFileEdges) : CrossFileEdges :=
  let rows := index.edges.zipIdx
  {index with
    maintainIndexes := true
    byFromSegment := pushAll (rows.map fun (edge,i) => (edge.fromSegment,U32.truncated i)) ∅
    byToSegment := pushAll (rows.map fun (edge,i) => (edge.toSegment,U32.truncated i)) ∅}

def releaseIndexes (index : CrossFileEdges) : CrossFileEdges :=
  {index with byFromSegment := ∅, byToSegment := ∅, maintainIndexes := false}

def compactEdge (toDrop : Finset U32) (compacted : List CrossFileEdge × AList fun _ : U32 => U32) (row : CrossFileEdge × Nat) :
    Option (List CrossFileEdge × AList fun _ : U32 => U32) :=
  let old := U32.truncated row.2
  if old ∈ toDrop then some compacted
  else do
    let new ← U32.tryFrom compacted.1.length
    return (compacted.1 ++ [row.1],compacted.2.insert old new)

def remapped (remap : AList fun _ : U32 => U32) (positions : IdMap (List U32)) : IdMap (List U32) :=
  positions.mapValues (·.map fun idx => (remap.lookup idx).getD idx)

def invalidateFromSegment (index : CrossFileEdges) (segment : SegmentId) : Option (CrossFileEdges × Nat) :=
  if index.maintainIndexes then
    let toDrop := ((index.byFromSegment.lookup segment).getD []).toFinset
    let byFromSegment := index.byFromSegment.erase segment
    if toDrop = ∅ then some ({index with byFromSegment},0)
    else do
      let byToSegment := index.byToSegment.mapValues (·.filter (· ∉ toDrop))
      let (compacted,remap) ← index.edges.zipIdx.foldlM (compactEdge toDrop) ([],∅)
      return ({index with
        edges := compacted
        byFromSegment := remapped remap byFromSegment
        byToSegment := remapped remap byToSegment},toDrop.card)
  else
    let edges := index.edges.filter (·.fromSegment ≠ segment)
    some (rebuildIndexes {index with edges},index.edges.length - edges.length)

end CrossFileEdges

inductive CrossFileOp where
  | push (edge : CrossFileEdge)
  | invalidateFromSegment (segment : SegmentId)
  | releaseIndexes
  | rebuildIndexes
  deriving DecidableEq, Repr

namespace CrossFileEdges

def apply (index : CrossFileEdges) : CrossFileOp → Option CrossFileEdges
  | .push edge => index.push edge
  | .invalidateFromSegment segment => (index.invalidateFromSegment segment).map (·.1)
  | .releaseIndexes => some index.releaseIndexes
  | .rebuildIndexes => some index.rebuildIndexes

def run (ops : List CrossFileOp) : Option CrossFileEdges := ops.foldlM apply new

def storedAfter (edges : List CrossFileEdge) : CrossFileOp → List CrossFileEdge
  | .push edge => edges ++ [edge]
  | .invalidateFromSegment segment => edges.filter (·.fromSegment ≠ segment)
  | .releaseIndexes | .rebuildIndexes => edges

def stored (ops : List CrossFileOp) : List CrossFileEdge := ops.foldl storedAfter []

structure Answers (index : CrossFileEdges) : Prop where
  outgoing : ∀ segment, index.outgoingFromSegment segment = index.edges.filter (·.fromSegment = segment)
  incoming : ∀ segment, index.incomingToSegment segment = index.edges.filter (·.toSegment = segment)

def Indexed (keyOf : CrossFileEdge → SegmentId) (edges : List CrossFileEdge) (positions : IdMap (List U32)) : Prop :=
  ∀ segment, ((positions.lookup segment).getD []).map (·.val) = postings keyOf edges segment

structure Consistent (index : CrossFileEdges) : Prop where
  fits : index.maintainIndexes = true → index.edges.length ≤ 2 ^ 32
  source : index.maintainIndexes = true → Indexed (·.fromSegment) index.edges index.byFromSegment
  target : index.maintainIndexes = true → Indexed (·.toSegment) index.edges index.byToSegment

section indexed
variable {keyOf : CrossFileEdge → SegmentId} {edges : List CrossFileEdge} {positions : IdMap (List U32)} {segment : SegmentId}

theorem tryFrom_eq {n : Nat} {idx : U32} : U32.tryFrom n = some idx ↔ idx.val = n := by
  unfold U32.tryFrom
  split
  · next fits => exact ⟨fun same => by cases same; rfl,fun same => congrArg some (Fin.ext same.symm)⟩
  · next large => exact ⟨nofun,fun same => absurd (same ▸ idx.isLt) large⟩

theorem truncated_val {n : Nat} (fits : n < 2 ^ 32) : (U32.truncated n).val = n := Nat.mod_eq_of_lt fits

theorem Indexed.rows (indexed : Indexed keyOf edges positions) :
    ((positions.lookup segment).getD []).filterMap (fun idx => edges[idx.val]?) = edges.filter (keyOf · = segment) := by
  rw [← postings_rows, ← indexed segment, List.filterMap_map]
  rfl

theorem Indexed.mem (indexed : Indexed keyOf edges positions) {idx : U32} : idx ∈ (positions.lookup segment).getD [] ↔
    ∃ edge, edges[idx.val]? = some edge ∧ keyOf edge = segment := by
  rw [← mem_postings, ← indexed segment, List.mem_map]
  constructor
  · exact fun member => ⟨idx,member,rfl⟩
  · intro found
    obtain ⟨other,member,same⟩ := found
    exact Fin.ext same ▸ member

theorem indexed_empty : Indexed keyOf [] ∅ := fun _ => rfl

theorem Indexed.push (indexed : Indexed keyOf edges positions) {edge : CrossFileEdge} {idx : U32} (position : idx.val = edges.length) :
    Indexed keyOf (edges ++ [edge]) (upsert [] (· ++ [idx]) (keyOf edge) positions) := by
  intro segment
  rw [postings_snoc, ← indexed segment, lookup_upsert]
  by_cases same : keyOf edge = segment
  · subst same
    simp [position]
  · rw [if_neg (Ne.symm same), if_neg same, List.append_nil]

theorem rebuilt_positions (keyOf : CrossFileEdge → SegmentId) (edges : List CrossFileEdge) (segment : SegmentId) :
    ((pushAll (edges.zipIdx.map fun (edge,i) => (keyOf edge,U32.truncated i)) ∅).lookup segment).getD [] =
      (postings keyOf edges segment).map U32.truncated := by
  rw [lookup_pushAll, AList.lookup_empty, Option.getD_none, List.nil_append]
  induction edges using List.reverseRecOn with
  | nil => rfl
  | append_singleton edges edge ih =>
    have shape : (edges ++ [edge]).zipIdx = edges.zipIdx ++ [(edge,edges.length)] := by simp [List.zipIdx_append]
    rw [shape, List.map_append, postings_snoc, List.map_append, ← ih, gather, gather, List.filterMap_append]
    congr 1
    by_cases same : keyOf edge = segment
    · simp [same]
    · simp [same]

theorem indexed_rebuilt (fits : edges.length ≤ 2 ^ 32) :
    Indexed keyOf edges (pushAll (edges.zipIdx.map fun (edge,i) => (keyOf edge,U32.truncated i)) ∅) := by
  intro segment
  rw [rebuilt_positions, List.map_map]
  refine (List.map_congr_left fun i member => ?_).trans (List.map_id _)
  obtain ⟨_,present,_⟩ := mem_postings.mp member
  exact truncated_val ((List.getElem?_eq_some_iff.mp present).1.trans_le fits)

end indexed

section compaction
variable {edges : List CrossFileEdge} {toDrop : Finset U32} {keep : CrossFileEdge → Bool}

theorem compact_exact (fits : edges.length ≤ 2 ^ 32)
    (drops : ∀ i edge, edges[i]? = some edge → (U32.truncated i ∈ toDrop ↔ keep edge = false)) :
    ∃ remap, edges.zipIdx.foldlM (compactEdge toDrop) ([],∅) = some (edges.filter keep,remap) ∧
      ∀ (idx : U32) edge, edges[idx.val]? = some edge → keep edge = true →
        ∃ new, remap.lookup idx = some new ∧ new.val = rank keep edges idx.val := by
  induction edges using List.reverseRecOn with
  | nil => exact ⟨∅,rfl,nofun⟩
  | append_singleton edges edge ih =>
    rw [List.length_append, List.length_singleton] at fits
    have earlier : ∀ i other, edges[i]? = some other → (edges ++ [edge])[i]? = some other := fun i other found => by
      rw [List.getElem?_append_left (List.getElem?_eq_some_iff.mp found).1]
      exact found
    obtain ⟨remap,ran,moved⟩ := ih (by omega) fun i other found => drops i other (earlier i other found)
    have shape : (edges ++ [edge]).zipIdx = edges.zipIdx ++ [(edge,edges.length)] := by simp [List.zipIdx_append]
    have last := drops edges.length edge (by rw [List.getElem?_append_right (Nat.le_refl _), Nat.sub_self]; rfl)
    have placed : (U32.truncated edges.length).val = edges.length := truncated_val fits
    rw [shape, List.foldlM_append, ran]
    simp only [Option.bind_eq_bind, Option.bind_some, List.foldlM_cons, List.foldlM_nil, List.filter_append,
      List.filter_singleton]
    cases kept : keep edge with
    | false =>
      refine ⟨remap,?_,fun idx other found stays => ?_⟩
      · rw [compactEdge, if_pos (last.mpr kept)]
        simp
      · rcases Nat.lt_or_ge idx.val edges.length with inside | outside
        · rw [List.getElem?_append_left inside] at found
          rw [rank_snoc inside.le]
          exact moved idx other found stays
        · rw [List.getElem?_append_right outside, List.getElem?_singleton] at found
          split at found
          · cases found
            rw [kept] at stays
            cases stays
          · cases found
    | true =>
      have unmarked : U32.truncated edges.length ∉ toDrop := fun member => by
        rw [last.mp member] at kept
        cases kept
      have shorter := List.length_filter_le keep edges
      have numbered : U32.tryFrom (edges.filter keep).length = some ⟨(edges.filter keep).length,by omega⟩ := tryFrom_eq.mpr rfl
      refine ⟨remap.insert (U32.truncated edges.length) ⟨(edges.filter keep).length,by omega⟩,?_,fun idx other found stays => ?_⟩
      · rw [compactEdge, if_neg unmarked]
        simp [numbered]
      · rcases Nat.lt_or_ge idx.val edges.length with inside | outside
        · rw [List.getElem?_append_left inside] at found
          have apart : idx ≠ U32.truncated edges.length := fun same => by
            rw [same, placed] at inside
            exact Nat.lt_irrefl _ inside
          rw [AList.lookup_insert_ne apart, rank_snoc inside.le]
          exact moved idx other found stays
        · rw [List.getElem?_append_right outside, List.getElem?_singleton] at found
          split at found
          · next zero =>
            have same : idx.val = edges.length := by omega
            have here : idx = U32.truncated edges.length := Fin.ext (same.trans placed.symm)
            refine ⟨_,by rw [here]; exact AList.lookup_insert remap,?_⟩
            rw [same, rank_snoc (Nat.le_refl _), rank_length]
          · cases found

theorem Indexed.compact {keyOf : CrossFileEdge → SegmentId} {positions : IdMap (List U32)}
    {remap : AList fun _ : U32 => U32} (indexed : Indexed keyOf edges positions)
    (moved : ∀ (idx : U32) edge, edges[idx.val]? = some edge → keep edge = true →
      ∃ new, remap.lookup idx = some new ∧ new.val = rank keep edges idx.val) {chosen : IdMap (List U32)}
    (stays : ∀ segment, (chosen.lookup segment).getD [] =
      ((positions.lookup segment).getD []).filter fun idx => edges[idx.val]?.any keep) :
    Indexed keyOf (edges.filter keep) (remapped remap chosen) := by
  intro segment
  have mapped : (((remapped remap chosen).lookup segment).getD []) =
      ((chosen.lookup segment).getD []).map fun idx => (remap.lookup idx).getD idx := by
    rw [remapped, IdMap.lookup_mapValues]
    cases chosen.lookup segment with
    | none => rfl
    | some found => rfl
  rw [mapped, stays, ← postings_filter, ← indexed segment, List.filter_map, List.map_map, List.map_map]
  refine List.map_congr_left fun idx member => ?_
  obtain ⟨edge,found,kept⟩ := (Option.any_eq_true _ _).mp (List.mem_filter.mp member).2
  obtain ⟨new,looked,same⟩ := moved idx edge found kept
  simp only [Function.comp, looked, Option.getD_some, same]

end compaction

section steps
variable {index next : CrossFileEdges} {edge : CrossFileEdge} {segment : SegmentId}

theorem Consistent.answers (consistent : Consistent index) : Answers index where
  outgoing segment := by
    unfold outgoingFromSegment
    split
    · next maintained => exact (consistent.source maintained).rows
    · rfl
  incoming segment := by
    unfold incomingToSegment
    split
    · next maintained => exact (consistent.target maintained).rows
    · rfl

theorem new_consistent : Consistent new := ⟨fun _ => Nat.zero_le _,fun _ => indexed_empty,fun _ => indexed_empty⟩

theorem push_consistent (consistent : Consistent index) (pushed : index.push edge = some next) :
    Consistent next ∧ next.edges = index.edges ++ [edge] := by
  unfold push at pushed
  split at pushed
  · next maintained =>
    obtain ⟨idx,position,same⟩ := Option.bind_eq_some_iff.mp pushed
    cases same
    have place := tryFrom_eq.mp position
    refine ⟨⟨fun _ => ?_,fun _ => (consistent.source maintained).push place,fun _ => (consistent.target maintained).push place⟩,rfl⟩
    have below := idx.isLt
    dsimp only
    rw [List.length_append, List.length_singleton, ← place]
    exact below
  · next released =>
    cases pushed
    exact ⟨⟨fun maintained => absurd maintained released,fun maintained => absurd maintained released,
      fun maintained => absurd maintained released⟩,rfl⟩

theorem release_consistent : Consistent index.releaseIndexes := ⟨nofun,nofun,nofun⟩

theorem rebuild_consistent (fits : index.edges.length ≤ 2 ^ 32) : Consistent index.rebuildIndexes :=
  ⟨fun _ => fits,fun _ => indexed_rebuilt fits,fun _ => indexed_rebuilt fits⟩

theorem mem_dropped (source : Indexed (·.fromSegment) index.edges index.byFromSegment) {idx : U32} :
    idx ∈ ((index.byFromSegment.lookup segment).getD []).toFinset ↔
      ∃ edge, index.edges[idx.val]? = some edge ∧ edge.fromSegment = segment := by
  rw [List.mem_toFinset, source.mem]

theorem card_dropped (source : Indexed (·.fromSegment) index.edges index.byFromSegment) :
    ((index.byFromSegment.lookup segment).getD []).toFinset.card = index.edges.countP (·.fromSegment = segment) := by
  have values := source segment
  have nodup : ((index.byFromSegment.lookup segment).getD []).Nodup :=
    List.Nodup.of_map (·.val) (values ▸ postings_nodup index.edges segment)
  rw [List.toFinset_card_of_nodup nodup, ← postings_length, ← values, List.length_map]

theorem invalidate_maintained (consistent : Consistent index) (maintained : index.maintainIndexes = true) (segment : SegmentId) :
    ∃ next, index.invalidateFromSegment segment = some (next,index.edges.countP (·.fromSegment = segment)) ∧
      next.edges = index.edges.filter (·.fromSegment ≠ segment) ∧ Consistent next := by
  have source := consistent.source maintained
  have target := consistent.target maintained
  have fits := consistent.fits maintained
  have card := @card_dropped index segment source
  have marked := @mem_dropped index segment source
  unfold invalidateFromSegment
  rw [if_pos maintained]
  dsimp only
  generalize ((index.byFromSegment.lookup segment).getD []).toFinset = toDrop at card marked
  split
  · next empty =>
    subst empty
    have absent : ∀ edge ∈ index.edges, edge.fromSegment ≠ segment := by
      intro edge member same
      have none_ := card.symm
      rw [Finset.card_empty, List.countP_eq_zero] at none_
      exact none_ edge member (decide_eq_true same)
    have whole : index.edges.filter (·.fromSegment ≠ segment) = index.edges :=
      List.filter_eq_self.mpr fun edge member => decide_eq_true (absent edge member)
    refine ⟨{index with byFromSegment := index.byFromSegment.erase segment},by rw [← card, Finset.card_empty],whole.symm,
      fun _ => fits,fun _ => ?_,fun _ => target⟩
    intro other
    by_cases same : other = segment
    · subst same
      dsimp only
      rw [AList.lookup_erase, Option.getD_none, List.map_nil, eq_comm, List.eq_nil_iff_forall_not_mem]
      intro i member
      obtain ⟨edge,present,leaves⟩ := mem_postings.mp member
      exact absent edge (List.mem_of_getElem? present) leaves
    · rw [AList.lookup_erase_ne same]
      exact source other
  · have drops : ∀ i edge, index.edges[i]? = some edge →
        (U32.truncated i ∈ toDrop ↔ decide (edge.fromSegment ≠ segment) = false) := by
      intro i edge present
      have inside := (List.getElem?_eq_some_iff.mp present).1
      rw [marked, truncated_val (inside.trans_le fits), present, decide_eq_false_iff_not, not_not]
      exact ⟨fun found => by obtain ⟨_,same,leaves⟩ := found; cases same; exact leaves,fun leaves => ⟨edge,rfl,leaves⟩⟩
    obtain ⟨remap,ran,moved⟩ := compact_exact fits drops
    rw [ran]
    have shorter := List.length_filter_le (fun edge : CrossFileEdge => decide (edge.fromSegment ≠ segment)) index.edges
    refine ⟨_,by rw [← card]; rfl,rfl,fun _ => shorter.trans fits,fun _ => source.compact moved ?_,fun _ => target.compact moved ?_⟩
    · intro other
      by_cases same : other = segment
      · subst same
        rw [AList.lookup_erase, Option.getD_none, eq_comm, List.filter_eq_nil_iff]
        intro idx member kept
        obtain ⟨edge,present,stays⟩ := (Option.any_eq_true _ _).mp kept
        obtain ⟨found,present',leaves⟩ := source.mem.mp member
        cases present.symm.trans present'
        exact of_decide_eq_true stays leaves
      · rw [AList.lookup_erase_ne same, eq_comm, List.filter_eq_self]
        intro idx member
        obtain ⟨edge,present,leaves⟩ := source.mem.mp member
        rw [present]
        exact decide_eq_true (leaves ▸ same)
    · intro other
      rw [IdMap.lookup_mapValues]
      have chosen : ∀ idx ∈ (index.byToSegment.lookup other).getD [],
          decide (idx ∉ toDrop) = index.edges[idx.val]?.any fun edge => decide (edge.fromSegment ≠ segment) := by
        intro idx member
        obtain ⟨edge,present,_⟩ := target.mem.mp member
        rw [present, Option.any_some]
        refine decide_eq_decide.mpr ?_
        rw [marked, present]
        exact not_congr ⟨fun found => by obtain ⟨_,same,leaves⟩ := found; cases same; exact leaves,fun leaves => ⟨edge,rfl,leaves⟩⟩
      rw [← List.filter_congr chosen]
      cases index.byToSegment.lookup other with
      | none => rfl
      | some found => rfl

theorem invalidate_released (released : index.maintainIndexes = false) (segment : SegmentId) :
    index.invalidateFromSegment segment = some (rebuildIndexes {index with
      edges := index.edges.filter (·.fromSegment ≠ segment)},index.edges.countP (·.fromSegment = segment)) := by
  unfold invalidateFromSegment
  rw [released]
  have split := List.length_eq_countP_add_countP (fun edge : CrossFileEdge => decide (edge.fromSegment = segment)) (l := index.edges)
  have rest : (index.edges.filter (·.fromSegment ≠ segment)).length =
      index.edges.countP fun edge => ¬decide (edge.fromSegment = segment) = true := by
    rw [← List.countP_eq_length_filter]
    simp
  simp only [Bool.false_eq_true, if_false, rest]
  rw [split, Nat.add_sub_cancel]

end steps

def Sized (index : CrossFileEdges) : CrossFileOp → Prop
  | .rebuildIndexes => index.edges.length ≤ 2 ^ 32
  | .invalidateFromSegment segment =>
    index.maintainIndexes = false → (index.edges.filter (·.fromSegment ≠ segment)).length ≤ 2 ^ 32
  | .push _ | .releaseIndexes => True

def SizedRun (ops : List CrossFileOp) : Prop :=
  ∀ before op after, ops = before ++ op :: after → ∀ index, run before = some index → index.Sized op

def NeverDrifts (ops : List CrossFileOp) : Prop := ∀ index, run ops = some index →
  index.edges = stored ops ∧ Answers index ∧ ∀ segment, ∃ next,
    index.invalidateFromSegment segment = some (next,index.edges.countP (·.fromSegment = segment)) ∧
      next.edges = index.edges.filter (·.fromSegment ≠ segment)

theorem step_consistent {index next : CrossFileEdges} {op : CrossFileOp} (consistent : Consistent index) (sized : index.Sized op)
    (stepped : index.apply op = some next) : Consistent next ∧ next.edges = storedAfter index.edges op := by
  cases op with
  | push edge => exact push_consistent consistent stepped
  | invalidateFromSegment segment =>
    cases maintained : index.maintainIndexes with
    | true =>
      obtain ⟨after,ran,edges,kept⟩ := invalidate_maintained consistent maintained segment
      rw [apply, ran, Option.map_some] at stepped
      cases stepped
      exact ⟨kept,edges⟩
    | false =>
      rw [apply, invalidate_released maintained, Option.map_some] at stepped
      cases stepped
      exact ⟨rebuild_consistent (sized maintained),rfl⟩
  | releaseIndexes =>
    cases stepped
    exact ⟨release_consistent,rfl⟩
  | rebuildIndexes =>
    cases stepped
    exact ⟨rebuild_consistent sized,rfl⟩

theorem run_snoc (ops : List CrossFileOp) (op : CrossFileOp) : run (ops ++ [op]) = (run ops).bind (·.apply op) := by
  rw [run, List.foldlM_append, ← run]
  cases run ops with
  | none => rfl
  | some index =>
    rw [Option.bind_eq_bind, Option.bind_some, Option.bind_some, List.foldlM_cons]
    exact bind_pure _

theorem run_consistent {ops : List CrossFileOp} (sized : SizedRun ops) {index : CrossFileEdges} (ran : run ops = some index) :
    Consistent index ∧ index.edges = stored ops := by
  induction ops using List.reverseRecOn generalizing index with
  | nil =>
    cases ran
    exact ⟨new_consistent,rfl⟩
  | append_singleton ops op ih =>
    rw [run_snoc] at ran
    obtain ⟨earlier,first,last⟩ := Option.bind_eq_some_iff.mp ran
    have before : SizedRun ops := fun front other back split => sized front other (back ++ [op]) (by rw [split]; simp)
    obtain ⟨consistent,edges⟩ := ih before first
    obtain ⟨kept,moved⟩ := step_consistent consistent (sized ops op [] rfl earlier first) last
    refine ⟨kept,?_⟩
    rw [moved, edges, stored, stored, List.foldl_append]
    rfl

theorem cross_file_indexes_exact (ops : List CrossFileOp) (sized : SizedRun ops) : NeverDrifts ops := by
  intro index ran
  obtain ⟨consistent,edges⟩ := run_consistent sized ran
  refine ⟨edges,consistent.answers,fun segment => ?_⟩
  cases maintained : index.maintainIndexes with
  | true =>
    obtain ⟨next,dropped,rest,_⟩ := invalidate_maintained consistent maintained segment
    exact ⟨next,dropped,rest⟩
  | false => exact ⟨_,invalidate_released maintained segment,rfl⟩

theorem stored_length (ops : List CrossFileOp) : (stored ops).length ≤ ops.length := by
  induction ops using List.reverseRecOn with
  | nil => exact Nat.le_refl _
  | append_singleton ops op ih =>
    rw [stored, List.foldl_append, ← stored, List.foldl_cons, List.foldl_nil, List.length_append, List.length_singleton]
    cases op with
    | push edge =>
      rw [storedAfter, List.length_append]
      exact Nat.succ_le_succ ih
    | invalidateFromSegment segment => exact ((List.length_filter_le _ _).trans ih).trans (Nat.le_succ _)
    | releaseIndexes | rebuildIndexes => exact ih.trans (Nat.le_succ _)

theorem short_sized {ops : List CrossFileOp} (short : ops.length ≤ 2 ^ 32) : SizedRun ops := by
  induction ops using List.reverseRecOn with
  | nil =>
    intro before op after split
    exact absurd split.symm (by simp)
  | append_singleton ops last ih =>
    rw [List.length_append, List.length_singleton] at short
    intro before op after split index ran
    rcases List.eq_nil_or_concat' after with rfl | ⟨rest,final,rfl⟩
    · obtain ⟨rfl,same⟩ := List.append_inj' split rfl
      cases same
      have few := stored_length ops
      rw [← (run_consistent (ih (by omega)) ran).2] at few
      cases last with
      | push _ | releaseIndexes => trivial
      | rebuildIndexes => exact few.trans (by omega)
      | invalidateFromSegment segment => exact fun _ => ((List.length_filter_le _ _).trans few).trans (by omega)
    · rw [← List.cons_append, ← List.append_assoc] at split
      obtain ⟨same,_⟩ := List.append_inj' split rfl
      exact ih (by omega) before op rest same index ran

def callEdge (source target : SegmentId) : CrossFileEdge := ⟨source,target,⟨0,0,⟨.interCallArg,.direct,⟨0,0,0⟩⟩⟩⟩

theorem cross_file_indexes_exact_pair :
    NeverDrifts [.push (callEdge 0 1),.push (callEdge 1 0),.releaseIndexes,.invalidateFromSegment 0] :=
  cross_file_indexes_exact _ (short_sized (by decide))

theorem released_pushes {index : CrossFileEdges} (released : index.maintainIndexes = false) (rows : List CrossFileEdge) :
    (rows.map CrossFileOp.push).foldlM apply index = some {index with edges := index.edges ++ rows} := by
  induction rows generalizing index with
  | nil =>
    rw [List.append_nil]
    rfl
  | cons row rows ih =>
    have pushed : index.apply (.push row) = some {index with edges := index.edges ++ [row]} := by
      rw [apply, push, released]
      rfl
    have rest := @ih {index with edges := index.edges ++ [row]} released
    rw [List.append_assoc] at rest
    rw [List.map_cons, List.foldlM_cons, pushed]
    exact rest

-- The edge behind the last position that fits is filed under the first one.
theorem wrapped_position {rows : List CrossFileEdge} {edge : CrossFileEdge} (full : rows.length = 2 ^ 32)
    (alone : ∀ row ∈ rows, row.fromSegment ≠ edge.fromSegment) :
    ∃ index, run (.releaseIndexes :: (rows ++ [edge]).map .push ++ [.rebuildIndexes]) = some index ∧
      index.outgoingFromSegment edge.fromSegment = rows[0]?.toList := by
  refine ⟨rebuildIndexes ⟨rows ++ [edge],∅,∅,false⟩,?_,?_⟩
  · have pushed := @released_pushes ⟨[],∅,∅,false⟩ rfl (rows ++ [edge])
    rw [run_snoc, run, List.foldlM_cons]
    show ((List.map CrossFileOp.push (rows ++ [edge])).foldlM apply ⟨[],∅,∅,false⟩).bind _ = _
    rw [pushed]
    rfl
  · have none_ : postings (·.fromSegment) rows edge.fromSegment = [] := by
      refine List.eq_nil_of_length_eq_zero ?_
      rw [postings_length, List.countP_eq_zero]
      exact fun row member same => alone row member (of_decide_eq_true same)
    have looked := rebuilt_positions (·.fromSegment) (rows ++ [edge]) edge.fromSegment
    rw [postings_snoc, none_, if_pos rfl, List.nil_append, List.map_singleton, full] at looked
    unfold outgoingFromSegment edgesAt rebuildIndexes
    dsimp only
    rw [if_pos rfl, looked]
    have first : (rows ++ [edge])[(U32.truncated (2 ^ 32)).val]? = rows[0]? := List.getElem?_append_left (by rw [full]; decide)
    rw [List.filterMap_cons, List.filterMap_nil, first]
    cases rows[0]? with
    | none => rfl
    | some row => rfl

theorem wrapped_position_drifts : ¬∀ ops, NeverDrifts ops := by
  intro claim
  obtain ⟨index,ran,answer⟩ := @wrapped_position (List.replicate (2 ^ 32) (callEdge 0 1)) (callEdge 1 0)
    List.length_replicate fun row member => by rw [List.eq_of_mem_replicate member]; decide
  obtain ⟨_,exact_,_⟩ := claim _ index ran
  have outgoing := exact_.outgoing 1
  have answer : index.outgoingFromSegment 1 = [callEdge 0 1] := answer.trans (by rw [List.getElem?_replicate]; rfl)
  rw [answer] at outgoing
  have member : callEdge 0 1 ∈ index.edges.filter (·.fromSegment = 1) := outgoing ▸ List.mem_singleton_self _
  exact absurd (of_decide_eq_true (List.mem_filter.mp member).2) (by decide)

end CrossFileEdges

end BonsaiNinja.Idg
