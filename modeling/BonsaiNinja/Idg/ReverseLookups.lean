import BonsaiNinja.Idg.ReverseIndexes
import BonsaiNinja.Library.PageCache
import Mathlib.Data.Fin.Basic

namespace BonsaiNinja.Idg
open Library

theorem not_before_zero (n : Nat) [NeZero n] (a : Fin n) : before a (0 : Fin n) = false := by
  show decide (a.val < (0 : Fin n).val) = false
  simp

theorem before_pair [RowOrder α] [DecidableEq α] [RowOrder β] (x y : α × β) :
    before x y = (before x.1 y.1 || (decide (x.1 = y.1) && before x.2 y.2)) := rfl

theorem before_fin {n : Nat} (a b : Fin n) : before a b = decide (a.val < b.val) := rfl

theorem fst_not_after [RowOrder α] [DecidableEq α] [RowOrder β] {x y : α × β} (lower : before x y = true) :
    before y.1 x.1 = false := by
  rw [before_pair,Bool.or_eq_true,Bool.and_eq_true,decide_eq_true_eq] at lower
  cases lower with
  | inl first => exact before_asymm first
  | inr second => rw [second.1]; exact RowOrder.irrefl _

namespace FactSourceIndex
variable {rows : List FactSourceRecord} {index : FactSourceIndex}

theorem key_not_after {a b : FactSourceRecord} (lower : before a b = true) : before b.key a.key = false :=
  @fst_not_after _ _ _ _ _ (a.key,a.node) (b.key,b.node) lower

theorem key_ordered (sorted : Sorted rows) : Buckets.KeyOrdered FactSourceRecord.key rows :=
  sorted.imp key_not_after

theorem base_ordered (sorted : Sorted rows) :
    Buckets.KeyOrdered (fun row : FactSourceRecord => row.key.val / 2 ^ 32) rows := by
  refine sorted.imp fun {a b} lower => ?_
  have le := key_not_after lower
  rw [before_fin,decide_eq_false_iff_not,Nat.not_lt] at le
  show decide (b.key.val / 2 ^ 32 < a.key.val / 2 ^ 32) = false
  rw [decide_eq_false_iff_not,Nat.not_lt]
  exact Nat.div_le_div_right le

theorem before_start (row : FactSourceRecord) (key : U64) : before row ⟨key,0⟩ = before row.key key := by
  show before (row.key,row.node) (key,(0 : U32)) = _
  rw [before_pair,not_before_zero,Bool.and_false,Bool.or_false]

theorem before_next {key : U64} (room : key ≠ u64Max) (row : FactSourceRecord) :
    before row ⟨key + 1,0⟩ = !before key row.key := by
  have next : (key + 1).val = key.val + 1 := Fin.val_add_one_of_lt (Fin.lt_last_iff_ne_last.mpr room)
  rw [before_start,before_fin,before_fin,next,← decide_not]
  exact decide_eq_decide.mpr (Nat.lt_succ_iff.trans Nat.not_lt.symm)

theorem highWord_val (base : U32) : (highWord base).val = base.val * 2 ^ 32 := by
  have bounded := base.isLt
  exact Nat.mod_eq_of_lt (by omega)

theorem before_base (row : FactSourceRecord) (base : U32) :
    before row ⟨highWord base,0⟩ = before (row.key.val / 2 ^ 32) base.val := by
  rw [before_start,before_fin,highWord_val]
  exact decide_eq_decide.mpr (Nat.div_lt_iff_lt_mul (by decide)).symm

theorem before_nextBase {base : U32} (room : base ≠ u32Max) (row : FactSourceRecord) :
    before row ⟨highWord (base + 1),0⟩ = !before base.val (row.key.val / 2 ^ 32) := by
  have next : (base + 1).val = base.val + 1 := Fin.val_add_one_of_lt (Fin.lt_last_iff_ne_last.mpr room)
  rw [before_base,next]
  show decide (row.key.val / 2 ^ 32 < base.val + 1) = !decide (base.val < row.key.val / 2 ^ 32)
  rw [← decide_not]
  exact decide_eq_decide.mpr (Nat.lt_succ_iff.trans Nat.not_lt.symm)

section
variable (stores : index.relation.Stores rows)
include stores

theorem keyEnd_exact
    (key : U64) : index.keyEnd key = some (rows.countP fun row => !before key row.key) := by
  unfold keyEnd
  by_cases top : key = u64Max
  · have all : rows.countP (fun row => !before key row.key) = rows.length := by
      refine List.countP_eq_length.mpr fun row _ => ?_
      rw [before_fin,top,← decide_not,decide_eq_true_eq,Nat.not_lt]
      exact Nat.le_of_lt_succ row.key.isLt
    rw [if_pos top,stores.len,all]
  · rw [if_neg top,SortedExternalRelation.lowerBound_exact stores]
    simp only [before_next top]

theorem baseEnd_exact
    (base : U32) : index.baseEnd base = some (rows.countP fun row => !before base.val (row.key.val / 2 ^ 32)) := by
  unfold baseEnd
  by_cases top : base = u32Max
  · have all : rows.countP (fun row => !before base.val (row.key.val / 2 ^ 32)) = rows.length := by
      refine List.countP_eq_length.mpr fun row _ => ?_
      have bounded := row.key.isLt
      show (!decide (base.val < row.key.val / 2 ^ 32)) = true
      rw [top,← decide_not,decide_eq_true_eq,Nat.not_lt]
      exact Nat.le_of_lt_succ ((Nat.div_lt_iff_lt_mul (by decide)).mpr bounded)
    rw [if_pos top,stores.len,all]
  · rw [if_neg top,SortedExternalRelation.lowerBound_exact stores]
    simp only [before_nextBase top]

theorem visitKey_exact
    (key : U64) (visit : σ → U32 → σ) (s : σ) :
    index.visitKey key visit s = some (((rows.filter fun row => row.key = key).map (·.node)).foldl visit s) := by
  have starts := SortedExternalRelation.lowerBound_exact stores ⟨key,0⟩
  simp only [before_start] at starts
  unfold visitKey
  simp only [starts,keyEnd_exact stores,Option.bind_eq_bind,Option.bind_some]
  rw [SortedExternalRelation.visitRange_exact stores _ List.countP_le_length,
    Buckets.slice_bucket (key_ordered stores.sorted),List.foldl_map]

theorem visitBase_exact
    (base : U32) (visit : σ → U32 → σ) (s : σ) :
    index.visitBase base visit s =
      some (((rows.filter fun row => row.key.val / 2 ^ 32 = base.val).map (·.node)).foldl visit s) := by
  have starts := SortedExternalRelation.lowerBound_exact stores ⟨highWord base,0⟩
  simp only [before_base] at starts
  unfold visitBase
  simp only [starts,baseEnd_exact stores,Option.bind_eq_bind,Option.bind_some]
  rw [SortedExternalRelation.visitRange_exact stores _ List.countP_le_length,
    Buckets.slice_bucket (base_ordered stores.sorted),List.foldl_map]

end

theorem bucket_sorted (sorted : Sorted rows) (key : U64) :
    Sorted ((rows.filter fun row => row.key = key).map (·.node)) := by
  refine List.pairwise_map.mpr (List.Pairwise.imp_of_mem ?_ (List.Pairwise.filter _ sorted))
  intro a b member other lower
  have same : a.key = b.key := by
    rw [of_decide_eq_true (List.mem_filter.mp member).2,of_decide_eq_true (List.mem_filter.mp other).2]
  have compared : before (a.key,a.node) (b.key,b.node) = true := lower
  rw [before_pair,same,RowOrder.irrefl] at compared
  simpa using compared

end FactSourceIndex

theorem visitRows_until (declines : R → Prop) [DecidablePred declines] (visit : σ → R → σ) (s : σ) (rows : List R) :
    (SortedExternalRelation.visitRows (fun s row => if declines row then (s,false) else (visit s row,true)) s rows).1 =
      (rows.takeWhile fun row => ¬declines row).foldl visit s := by
  induction rows generalizing s with
  | nil => rfl
  | cons row rest ih =>
    rw [SortedExternalRelation.visitRows]
    by_cases stop : declines row
    · rw [if_pos stop,List.takeWhile_cons_of_neg (by simpa using stop)]
      rfl
    · rw [if_neg stop,List.takeWhile_cons_of_pos (by simpa using stop)]
      exact ih (visit s row)

namespace ReverseScalarTransformIndex

def place (row : ReverseScalarRecord) : U32 × U32 × U64 × U64 := (row.target,row.file,row.start,row.stop)

theorem before_start (row : ReverseScalarRecord) (target file : U32) (start stop : U64) :
    before row ⟨target,file,start,stop,0,0⟩ = before (place row) (target,file,start,stop) := by
  show before (row.target,row.file,row.start,row.stop,row.source,row.exactField) (target,file,start,stop,(0 : U32),(0 : U32)) = _
  simp only [place,before_pair,not_before_zero,Bool.and_false,Bool.or_false]

theorem place_not_after {a b : ReverseScalarRecord} (lower : before a b = true) : before (place b) (place a) = false := by
  have compared : before (a.target,a.file,a.start,a.stop,a.source,a.exactField)
      (b.target,b.file,b.start,b.stop,b.source,b.exactField) = true := lower
  cases upper : before (place b) (place a) with
  | false => rfl
  | true =>
    have later : before (b.target,b.file,b.start,b.stop,b.source,b.exactField)
        (a.target,a.file,a.start,a.stop,a.source,a.exactField) = true := by
      simp only [place,before_pair,Bool.or_eq_true,Bool.and_eq_true] at upper ⊢
      tauto
    rw [before_asymm compared] at later
    cases later

theorem visitIncoming_exact {index : ReverseScalarTransformIndex} {rows : List ReverseScalarRecord}
    (stores : index.relation.Stores rows) (target file : U32) (start stop : U64) (visit : σ → U32 × U32 → σ) (s : σ) :
    index.visitIncoming target file start stop visit s =
      some (((rows.filter fun row => place row = (target,file,start,stop)).map fun row => (row.source,row.exactField)).foldl
        visit s) := by
  have ordered : Buckets.KeyOrdered place rows := stores.sorted.imp place_not_after
  have starts := SortedExternalRelation.lowerBound_exact stores ⟨target,file,start,stop,0,0⟩
  simp only [before_start] at starts
  unfold visitIncoming
  simp only [starts,Option.bind_eq_bind,Option.bind_some]
  rw [SortedExternalRelation.visitWhile_exact stores,visitRows_until,← Buckets.takeWhile_bucket ordered,List.foldl_map]
  refine congrArg some (congrArg (List.foldl _ s) (congrArg (List.takeWhile · _) ?_))
  funext row
  simp only [place,Prod.mk.injEq,not_or,not_not,ne_eq]

end ReverseScalarTransformIndex

-- Every cached page is the whole bucket of its target, and the order lists the
-- cached targets.
structure ReversePageCache.Valid (bucket : U32 → List SymbolicRow) (cache : ReversePageCache) : Prop where
  pages : ∀ page ∈ cache.pages, page.2 = bucket page.1
  listed : cache.order = cache.pages.map (·.1)
  distinct : (cache.pages.map (·.1)).Nodup

namespace ReversePageCache

theorem new_valid (bucket : U32 → List SymbolicRow) (capacity byteBudget : Nat) : (new capacity byteBudget).Valid bucket :=
  ⟨fun _ member => absurd member List.not_mem_nil,rfl,.nil⟩

theorem lookup_exact {bucket : U32 → List SymbolicRow} {cache : ReversePageCache} (valid : cache.Valid bucket) {target : U32}
    {rows : List SymbolicRow} (found : cache.pages.lookup target = some rows) : rows = bucket target :=
  valid.pages (target,rows) (List.lookup_eq_some_iff.mp found |> fun ⟨_,_,split,_⟩ => by rw [split]; simp)

theorem evict_eq (capacity : Nat) (order : List U32) (pages : List (U32 × List SymbolicRow)) :
    evict capacity order pages = (PageCache.evict capacity order pages).map fun kept => (kept.pages,kept.order) := by
  induction order generalizing pages with
  | nil =>
    rw [evict,PageCache.evict]
    split <;> rfl
  | cons evicted order ih =>
    rw [evict,PageCache.evict]
    split
    · rfl
    · exact ih _

theorem insert_valid {bucket : U32 → List SymbolicRow} {cache : ReversePageCache} (valid : cache.Valid bucket) (target : U32) :
    ∃ cache', cache.insert target (bucket target) = some cache' ∧ cache'.Valid bucket := by
  unfold insert
  split
  · have keys : (cache.pages.map fun page => if page.1 = target then (target,bucket target) else page).map (·.1) =
        cache.pages.map (·.1) := by
      rw [List.map_map]
      refine List.map_congr_left fun page _ => ?_
      by_cases same : page.1 = target <;> simp [same]
    refine ⟨_,rfl,fun page member => ?_,?_,?_⟩
    · obtain ⟨old,source,rfl⟩ := List.mem_map.mp member
      by_cases same : old.1 = target
      · rw [if_pos same]
      · rw [if_neg same]
        exact valid.pages old source
    · exact valid.listed.trans keys.symm
    · rw [keys]
      exact valid.distinct
  · next absent =>
    have held : (PageCache.mk cache.pages cache.order).Valid bucket := ⟨valid.pages,valid.listed,valid.distinct⟩
    obtain ⟨kept,ran,pages,listed,distinct⟩ := PageCache.remember_valid held (Option.not_isSome_iff_eq_none.mp absent) cache.capacity
    refine ⟨{ cache with pages := kept.pages, order := kept.order },?_,pages,listed,distinct⟩
    rw [evict_eq]
    rw [PageCache.remember] at ran
    rw [ran]
    rfl

end ReversePageCache

theorem decodeKind_kindByte (kind : SymbolicFieldTransformKind) : decodeKind (kindByte kind) = some kind := by
  cases kind <;> rfl

namespace ReverseSymbolicTransformIndex

theorem before_start (row : ReverseSymbolicRecord) (target : U32) : before row ⟨target,0,0⟩ = before row.target target := by
  show before (row.target,row.source,row.kind) (target,(0 : U32),(0 : U8)) = _
  simp only [before_pair,not_before_zero,Bool.and_false,Bool.or_false]

theorem target_not_after {a b : ReverseSymbolicRecord} (lower : before a b = true) : before b.target a.target = false :=
  @fst_not_after _ _ _ _ _ (a.target,a.source,a.kind) (b.target,b.source,b.kind) lower

theorem remember_all (front : List SymbolicRow) {maxEntryRows : Nat} {visited rows : List SymbolicRow} {candidate : Option (List SymbolicRow)}
    (kept : ∀ held, candidate = some held → held = front)
    (finished : visited.foldl (remember maxEntryRows) candidate = some rows) : rows = front ++ visited := by
  induction visited generalizing candidate front with
  | nil =>
    rw [List.append_nil]
    exact kept rows finished
  | cons row rest ih =>
    have next : ∀ held, remember maxEntryRows candidate row = some held → held = front ++ [row] := by
      intro held some
      obtain ⟨old,found,grown⟩ := Option.bind_eq_some_iff.mp some
      split at grown
      · rw [← Option.some.inj grown,kept old found]
      · cases grown
    rw [ih (front ++ [row]) next finished,List.append_assoc]
    rfl

theorem visitRow_exact (target : U32) (maxEntryRows : Nat) (visit : σ → SymbolicRow → σ) {rows : List ReverseSymbolicRecord}
    {bucket : List SymbolicRow}
    (decoded : (rows.takeWhile fun row => row.target = target).map (fun row => (row.source,decodeKind row.kind)) =
      bucket.map fun row => (row.1,some row.2)) (s : σ) (candidate : Option (List SymbolicRow)) :
    (SortedExternalRelation.visitRows (visitRow target maxEntryRows visit) (some (s,candidate)) rows).1 =
      some (bucket.foldl visit s,bucket.foldl (remember maxEntryRows) candidate) := by
  induction rows generalizing bucket s candidate with
  | nil =>
    cases bucket with
    | nil => rfl
    | cons _ _ => simp at decoded
  | cons row rest ih =>
    rw [SortedExternalRelation.visitRows,visitRow]
    by_cases same : row.target = target
    · rw [List.takeWhile_cons_of_pos (by simpa using same),List.map_cons] at decoded
      cases bucket with
      | nil => simp at decoded
      | cons first later =>
        obtain ⟨head,tail⟩ := List.cons.inj (decoded.trans List.map_cons)
        obtain ⟨source,kind⟩ := Prod.mk.inj head
        rw [if_neg (by simpa using same),kind]
        simp only [source]
        exact ih tail (visit s first) (remember maxEntryRows candidate first)
    · rw [List.takeWhile_cons_of_neg (by simpa using same),List.map_nil] at decoded
      have empty : bucket = [] := List.map_eq_nil_iff.mp decoded.symm
      rw [if_pos (by simpa using same),empty]
      rfl

structure Serves (bucket : U32 → List SymbolicRow) (index : ReverseSymbolicTransformIndex) : Prop where
  cache : index.cache.Valid bucket
  relation : ∃ rows, index.relation.Stores rows ∧ ∀ target,
    (rows.filter fun row => row.target = target).map (fun row => (row.source,decodeKind row.kind)) =
      (bucket target).map fun row => (row.1,some row.2)

theorem visitIncoming_exact {bucket : U32 → List SymbolicRow} {index : ReverseSymbolicTransformIndex}
    (serves : index.Serves bucket) (target : U32) (visit : σ → SymbolicRow → σ) (s : σ) :
    ∃ index', index.visitIncoming target visit s = some ((bucket target).foldl visit s,index') ∧ index'.Serves bucket := by
  unfold visitIncoming
  cases cached : index.cache.pages.lookup target with
  | some rows =>
    have whole := ReversePageCache.lookup_exact serves.cache cached
    exact ⟨index,by rw [whole],serves⟩
  | none =>
    obtain ⟨rows,stores,decoded⟩ := serves.relation
    have ordered : Buckets.KeyOrdered ReverseSymbolicRecord.target rows := stores.sorted.imp target_not_after
    have starts := SortedExternalRelation.lowerBound_exact stores ⟨target,0,0⟩
    simp only [before_start] at starts
    have visited := visitRow_exact target index.cache.maxEntryRows visit
      (by rw [Buckets.takeWhile_bucket ordered]; exact decoded target) s (some [])
    simp only [starts,SortedExternalRelation.visitWhile_exact stores,visited,Option.bind_eq_bind,Option.bind_some]
    cases finished : (bucket target).foldl (remember index.cache.maxEntryRows) (some []) with
    | none => exact ⟨index,rfl,serves⟩
    | some candidate =>
      have whole := remember_all [] (fun held same => (Option.some.inj same).symm) finished
      obtain ⟨cache,inserted,valid⟩ := ReversePageCache.insert_valid serves.cache target
      rw [List.nil_append] at whole
      simp only [whole,inserted,Option.bind_some]
      exact ⟨{ index with cache := cache },rfl,valid,rows,stores,decoded⟩

theorem foldl_snoc (front rows : List α) : rows.foldl (fun rows row => rows ++ [row]) front = front ++ rows := by
  induction rows generalizing front with
  | nil => exact (List.append_nil front).symm
  | cons row rest ih => rw [List.foldl_cons,ih,List.append_assoc]; rfl

theorem visitCalls_exact {bucket : U32 → List SymbolicRow} (calls : List U32) {index : ReverseSymbolicTransformIndex}
    (serves : index.Serves bucket) :
    ∃ index', visitCalls calls index = some (calls.map bucket,index') ∧ index'.Serves bucket := by
  induction calls generalizing index with
  | nil => exact ⟨index,rfl,serves⟩
  | cons target rest ih =>
    obtain ⟨middle,ran,serves⟩ := visitIncoming_exact serves target (fun rows row => rows ++ [row]) []
    obtain ⟨last,later,serves⟩ := ih serves
    rw [foldl_snoc,List.nil_append] at ran
    refine ⟨last,?_,serves⟩
    rw [visitCalls]
    simp only [ran,later,Option.bind_eq_bind,Option.bind_some]
    rfl

end ReverseSymbolicTransformIndex

theorem kindByte_of_decodeKind {value : U8} {kind : SymbolicFieldTransformKind} (decoded : decodeKind value = some kind) :
    value = kindByte kind := by
  unfold decodeKind at decoded
  split at decoded
  all_goals first
    | cases decoded; next same => exact Fin.ext same
    | cases decoded

theorem spooled_finish {R : Type} [ExternalRecord R] [DecidableEq R] (runRows : Nat) (memoryLimit : Option Nat)
    (pushed : List R) :
    ∃ relation rows, (spooled runRows pushed).finish memoryLimit = some relation ∧ relation.Stores rows ∧
      ∀ x, x ∈ rows ↔ x ∈ pushed := ExternalSorter.sorted_exact runRows memoryLimit pushed

theorem factSource_lookups (memoryLimit : Option Nat) (pushed : List (U64 × U32)) :
    ∃ relation, (factSourceSpool pushed).finish memoryLimit = some relation ∧
      (∀ key, ∃ nodes, Sorted nodes ∧ (∀ node, node ∈ nodes ↔ (key,node) ∈ pushed) ∧
        ∀ {σ : Type} (visit : σ → U32 → σ) (s : σ),
          FactSourceIndex.visitKey ⟨relation⟩ key visit s = some (nodes.foldl visit s)) ∧
      ∀ base : U32, ∃ rows : List (U64 × U32), Sorted rows ∧
        (∀ row, row ∈ rows ↔ row ∈ pushed ∧ row.1.val / 2 ^ 32 = base.val) ∧
        ∀ {σ : Type} (visit : σ → U32 → σ) (s : σ),
          FactSourceIndex.visitBase ⟨relation⟩ base visit s = some ((rows.map (·.2)).foldl visit s) := by
  obtain ⟨relation,rows,finished,stores,members⟩ := spooled_finish 131072 memoryLimit
    (pushed.map fun row : U64 × U32 => (⟨row.1,row.2⟩ : FactSourceRecord))
  have stored : ∀ key node, (⟨key,node⟩ : FactSourceRecord) ∈ rows ↔ (key,node) ∈ pushed := by
    intro key node
    rw [members,List.mem_map]
    constructor
    · rintro ⟨row,member,same⟩
      cases same
      exact member
    · intro member
      exact ⟨(key,node),member,rfl⟩
  refine ⟨relation,finished,fun key => ⟨_,FactSourceIndex.bucket_sorted stores.sorted key,fun node => ?_,?_⟩,fun base =>
    ⟨(rows.filter fun row => row.key.val / 2 ^ 32 = base.val).map fun row => (row.key,row.node),?_,fun row => ?_,?_⟩⟩
  · rw [← stored]
    simp only [List.mem_map,List.mem_filter,decide_eq_true_eq]
    constructor
    · rintro ⟨⟨_,_⟩,⟨member,rfl⟩,rfl⟩
      exact member
    · intro member
      exact ⟨_,⟨member,rfl⟩,rfl⟩
  · intro σ visit s
    exact FactSourceIndex.visitKey_exact stores key visit s
  · exact List.pairwise_map.mpr (List.Pairwise.filter _ stores.sorted)
  · rw [← stored]
    simp only [List.mem_map,List.mem_filter,decide_eq_true_eq]
    constructor
    · rintro ⟨⟨_,_⟩,⟨member,within⟩,rfl⟩
      exact ⟨member,within⟩
    · rintro ⟨member,within⟩
      exact ⟨_,⟨member,within⟩,rfl⟩
  · intro σ visit s
    rw [List.map_map]
    exact FactSourceIndex.visitBase_exact stores base visit s

theorem reverseScalar_lookups (memoryLimit : Option Nat) (pushed : List ReverseScalarRecord) :
    ∃ relation, (reverseScalarSpool pushed).finish memoryLimit = some relation ∧
      ∀ target file start stop, ∃ rows : List (U32 × U32), rows.Nodup ∧
        (∀ source exactField, (source,exactField) ∈ rows ↔ ⟨target,file,start,stop,source,exactField⟩ ∈ pushed) ∧
        ∀ {σ : Type} (visit : σ → U32 × U32 → σ) (s : σ),
          ReverseScalarTransformIndex.visitIncoming ⟨relation⟩ target file start stop visit s = some (rows.foldl visit s) := by
  obtain ⟨relation,rows,finished,stores,members⟩ := spooled_finish 100000 memoryLimit pushed
  refine ⟨relation,finished,fun target file start stop => ⟨_,?_,fun source exactField => ?_,fun visit s =>
    ReverseScalarTransformIndex.visitIncoming_exact stores target file start stop visit s⟩⟩
  · refine List.Nodup.map_on ?_ (stores.sorted.nodup.filter _)
    intro a member b other same
    have place := of_decide_eq_true (List.mem_filter.mp member).2
    have place' := of_decide_eq_true (List.mem_filter.mp other).2
    obtain ⟨_,_,_,_,_,_⟩ := a
    obtain ⟨_,_,_,_,_,_⟩ := b
    simp_all [ReverseScalarTransformIndex.place]
  · rw [← members]
    simp only [List.mem_map,List.mem_filter,decide_eq_true_eq,ReverseScalarTransformIndex.place,Prod.mk.injEq]
    constructor
    · rintro ⟨⟨_,_,_,_,_,_⟩,⟨member,rfl,rfl,rfl,rfl⟩,rfl,rfl⟩
      exact member
    · intro member
      exact ⟨_,⟨member,rfl,rfl,rfl,rfl⟩,rfl,rfl⟩

theorem reverseSymbolic_lookups (memoryLimit : Option Nat) (pushed : List (U32 × SymbolicRow)) :
    ∃ relation, (reverseSymbolicSpool pushed).finish memoryLimit = some relation ∧
      ∃ bucket : U32 → List SymbolicRow, (∀ target, (bucket target).Nodup ∧
        ∀ row, row ∈ bucket target ↔ (target,row) ∈ pushed) ∧
      ∀ capacity byteBudget calls, ∃ index',
        ReverseSymbolicTransformIndex.visitCalls calls ⟨relation,ReversePageCache.new capacity byteBudget⟩ =
          some (calls.map bucket,index') := by
  obtain ⟨relation,rows,finished,stores,members⟩ := spooled_finish 131072 memoryLimit
    (pushed.map fun row : U32 × SymbolicRow => (⟨row.1,row.2.1,kindByte row.2.2⟩ : ReverseSymbolicRecord))
  have stored : ∀ target source kind, (⟨target,source,kindByte kind⟩ : ReverseSymbolicRecord) ∈ rows ↔
      (target,source,kind) ∈ pushed := by
    intro target source kind
    rw [members,List.mem_map]
    constructor
    · rintro ⟨⟨_,_,other⟩,member,same⟩
      obtain ⟨rfl,rfl,kinds⟩ := ReverseSymbolicRecord.mk.inj same
      have decoded := decodeKind_kindByte kind
      rw [← kinds,decodeKind_kindByte] at decoded
      exact Option.some.inj decoded ▸ member
    · intro member
      exact ⟨_,member,rfl⟩
  have kinds : ∀ row ∈ rows, ∃ kind, decodeKind row.kind = some kind := by
    intro row member
    obtain ⟨source,_,rfl⟩ := List.mem_map.mp ((members row).mp member)
    exact ⟨source.2.2,decodeKind_kindByte _⟩
  let bucket := fun target => (rows.filter fun row => row.target = target).filterMap fun row =>
    (decodeKind row.kind).map fun kind => (row.source,kind)
  have decoded : ∀ target, (rows.filter fun row => row.target = target).map (fun row => (row.source,decodeKind row.kind)) =
      (bucket target).map fun row => (row.1,some row.2) := by
    intro target
    rw [List.map_filterMap,← List.filterMap_eq_map]
    refine List.filterMap_congr fun row member => ?_
    obtain ⟨kind,same⟩ := kinds row (List.mem_of_mem_filter member)
    simp [same]
  refine ⟨relation,finished,bucket,fun target => ⟨?_,fun row => ?_⟩,fun capacity byteBudget calls => ?_⟩
  · refine List.Nodup.of_map (fun row => (row.1,some row.2)) ?_
    rw [← decoded target]
    refine List.Nodup.map_on ?_ (stores.sorted.nodup.filter _)
    intro a member b other same
    obtain ⟨source,kindSame⟩ := Prod.mk.inj same
    obtain ⟨kind,known⟩ := kinds a (List.mem_of_mem_filter member)
    have first := kindByte_of_decodeKind known
    have second := kindByte_of_decodeKind (kindSame ▸ known)
    have here := of_decide_eq_true (List.mem_filter.mp member).2
    have there := of_decide_eq_true (List.mem_filter.mp other).2
    obtain ⟨_,_,_⟩ := a
    obtain ⟨_,_,_⟩ := b
    simp_all
  · obtain ⟨source,kind⟩ := row
    rw [← stored]
    simp only [bucket,List.mem_filterMap,List.mem_filter,decide_eq_true_eq,Option.map_eq_some_iff,Prod.mk.injEq]
    constructor
    · rintro ⟨⟨_,_,_⟩,⟨member,rfl⟩,_,same,rfl,rfl⟩
      rw [← kindByte_of_decodeKind same]
      exact member
    · intro member
      exact ⟨_,⟨member,rfl⟩,kind,decodeKind_kindByte kind,rfl,rfl⟩
  · obtain ⟨index',ran,_⟩ := ReverseSymbolicTransformIndex.visitCalls_exact calls
      (⟨ReversePageCache.new_valid bucket capacity byteBudget,rows,stores,decoded⟩ :
        ReverseSymbolicTransformIndex.Serves bucket ⟨relation,ReversePageCache.new capacity byteBudget⟩)
    exact ⟨index',ran⟩

theorem reverse_index_lookups_exact (memoryLimit : Option Nat) (facts : List (U64 × U32)) (scalars : List ReverseScalarRecord)
    (symbols : List (U32 × SymbolicRow)) :
    (∃ relation, (factSourceSpool facts).finish memoryLimit = some relation ∧
      (∀ key, ∃ nodes, Sorted nodes ∧ (∀ node, node ∈ nodes ↔ (key,node) ∈ facts) ∧
        ∀ {σ : Type} (visit : σ → U32 → σ) (s : σ),
          FactSourceIndex.visitKey ⟨relation⟩ key visit s = some (nodes.foldl visit s)) ∧
      ∀ base : U32, ∃ rows : List (U64 × U32), Sorted rows ∧
        (∀ row, row ∈ rows ↔ row ∈ facts ∧ row.1.val / 2 ^ 32 = base.val) ∧
        ∀ {σ : Type} (visit : σ → U32 → σ) (s : σ),
          FactSourceIndex.visitBase ⟨relation⟩ base visit s = some ((rows.map (·.2)).foldl visit s)) ∧
    (∃ relation, (reverseScalarSpool scalars).finish memoryLimit = some relation ∧
      ∀ target file start stop, ∃ rows : List (U32 × U32), rows.Nodup ∧
        (∀ source exactField, (source,exactField) ∈ rows ↔ ⟨target,file,start,stop,source,exactField⟩ ∈ scalars) ∧
        ∀ {σ : Type} (visit : σ → U32 × U32 → σ) (s : σ),
          ReverseScalarTransformIndex.visitIncoming ⟨relation⟩ target file start stop visit s = some (rows.foldl visit s)) ∧
    ∃ relation, (reverseSymbolicSpool symbols).finish memoryLimit = some relation ∧
      ∃ bucket : U32 → List SymbolicRow, (∀ target, (bucket target).Nodup ∧
        ∀ row, row ∈ bucket target ↔ (target,row) ∈ symbols) ∧
      ∀ capacity byteBudget calls, ∃ index',
        ReverseSymbolicTransformIndex.visitCalls calls ⟨relation,ReversePageCache.new capacity byteBudget⟩ =
          some (calls.map bucket,index') :=
  ⟨factSource_lookups memoryLimit facts,reverseScalar_lookups memoryLimit scalars,reverseSymbolic_lookups memoryLimit symbols⟩

end BonsaiNinja.Idg
