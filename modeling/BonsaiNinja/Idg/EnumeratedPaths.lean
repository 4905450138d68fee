import BonsaiNinja.Idg.PathEnumeration
import BonsaiNinja.Library.Folds
import Mathlib.Data.List.Chain

namespace BonsaiNinja.Idg
open Library

structure SimplePath (index : ReachabilityIndex) (cut : NodeBitSet) (src sink : NodeId) (path : List NodeId) : Prop where
  starts : path.head? = some src
  ends : path.getLast? = some sink
  edges : path.IsChain fun a b => (a,b) ∈ index.pairs
  distinct : path.Nodup
  inside : ∀ node ∈ path, cut.contains node = true

theorem SimplePath.onward {index : ReachabilityIndex} {cut : NodeBitSet} {src sink : NodeId}
    {path below rest : List NodeId} {cur target : NodeId} (simple : SimplePath index cut src sink path)
    (split : path = (cur :: below).reverse ++ target :: rest) :
    cur ≠ sink ∧ (cur,target) ∈ index.pairs ∧ cut.contains target = true ∧ target ∉ cur :: below := by
  rw [List.reverse_cons,List.append_assoc,List.singleton_append] at split
  have distinct := simple.distinct
  rw [split] at distinct
  obtain ⟨_,behind,apart⟩ := List.nodup_append.mp distinct
  refine ⟨?_,?_,?_,?_⟩
  · intro same
    have ends := simple.ends
    rw [split,List.getLast?_append_cons,List.getLast?_cons_cons] at ends
    exact (List.nodup_cons.mp behind).1 (same ▸ List.mem_of_getLast? ends)
  · have edges := simple.edges
    rw [split] at edges
    exact (List.isChain_cons_cons.mp edges.right_of_append).1
  · exact simple.inside target (by rw [split]; simp)
  · intro member
    cases List.mem_cons.mp member with
    | inl same => exact (List.nodup_cons.mp behind).1 (same ▸ List.mem_cons_self)
    | inr old => exact apart target (List.mem_reverse.mpr old) target (List.mem_cons_of_mem _ List.mem_cons_self) rfl

def SearchEvent.path : SearchEvent → Option (List NodeId)
  | .found path => some path
  | .cutOff => none

namespace PathSearch
variable (index : ReachabilityIndex) (cut : NodeBitSet) (sink : NodeId) (maxPaths maxLen : Nat)

-- Every way to complete a partial path, newest node first; parallel edges are different
-- ways.
def routesFrom (path : List NodeId) : List (List NodeId) :=
  (events index cut sink maxLen (index.nodeCount + 2 - path.length) path).filterMap SearchEvent.path

def openRow (path : List NodeId) : List NodeId :=
  match path with
  | [] => []
  | cur :: _ =>
    if cur = sink then []
    else if maxLen ≤ path.length then []
    else (index.forwardNeighbours cur).filter (freshInCut cut path)

-- Among the first `budget` ways to complete a path there is one that takes a second edge
-- between the same two nodes.
inductive Doubled : Nat → List NodeId → Prop
  | again (row : openRow index cut sink maxLen trail = earlier ++ target :: later) (twice : target ∈ earlier)
      (leads : routesFrom index cut sink maxLen (target :: trail) ≠ [])
      (due : (earlier.flatMap fun target => routesFrom index cut sink maxLen (target :: trail)).length < budget) :
      Doubled budget trail
  | deeper (row : openRow index cut sink maxLen trail = earlier ++ target :: later)
      (doubled : Doubled (budget - (earlier.flatMap fun target => routesFrom index cut sink maxLen (target :: trail)).length)
        (target :: trail)) : Doubled budget trail

variable {index} {cut} {sink} {maxPaths} {maxLen}

theorem observe_all (events : List SearchEvent) (seen : List (List NodeId) × PathTruncation) (room : seen.1.length ≤ maxPaths) :
    (events.foldl (observe maxPaths) seen).1 = seen.1 ++ (events.filterMap SearchEvent.path).take (maxPaths - seen.1.length) ∧
      ((events.foldl (observe maxPaths) seen).2 = .none → seen.2 = .none ∧
        (seen.1.length + (events.filterMap SearchEvent.path).length < maxPaths → .cutOff ∉ events)) := by
  induction events generalizing seen with
  | nil => simp
  | cons event rest ih =>
    by_cases full : maxPaths ≤ seen.1.length
    · rw [observe_all_full full]
      refine ⟨by rw [Nat.sub_eq_zero_of_le full,List.take_zero,List.append_nil],fun clear => ⟨clear,fun few => ?_⟩⟩
      omega
    · rw [List.foldl_cons]
      cases event with
      | found path =>
        have step : observe maxPaths seen (.found path) = (seen.1 ++ [path],seen.2) := if_neg full
        rw [step]
        have longer : (seen.1 ++ [path]).length = seen.1.length + 1 := List.length_append
        obtain ⟨out,clear⟩ := ih (seen.1 ++ [path],seen.2) (by change (seen.1 ++ [path]).length ≤ _; omega)
        dsimp only at out clear
        rw [longer] at out clear
        refine ⟨?_,fun none => ⟨(clear none).1,fun few => ?_⟩⟩
        · rw [out,List.filterMap_cons,SearchEvent.path,List.append_assoc]
          dsimp only
          rw [show maxPaths - seen.1.length = maxPaths - (seen.1.length + 1) + 1 by omega,List.take_succ_cons]
          rfl
        · rw [List.filterMap_cons,SearchEvent.path] at few
          dsimp only at few
          rw [List.length_cons] at few
          have later := (clear none).2 (by omega)
          simpa using later
      | cutOff =>
        have step : observe maxPaths seen .cutOff = (seen.1,if seen.2 = .none then .maxDepth else seen.2) := if_neg full
        rw [step]
        obtain ⟨out,clear⟩ := ih (seen.1,if seen.2 = .none then .maxDepth else seen.2) room
        refine ⟨out,fun none => ?_⟩
        have flagged := (clear none).1
        dsimp only at flagged
        split at flagged
        · cases flagged
        · next other => exact absurd flagged other

-- A path the search can stand on: newest node first, all nodes but the first in the
-- address space.
structure Grounded (index : ReachabilityIndex) (path : List NodeId) : Prop where
  distinct : path.Nodup
  inside : ∀ node ∈ path.dropLast, node < index.nodeCount

theorem Grounded.bound {path : List NodeId} (grounded : Grounded index path) : path.length ≤ index.nodeCount + 1 :=
  PathSearch.simple_length grounded.distinct grounded.inside

theorem fresh_iff {path : List NodeId} {target : NodeId} :
    freshInCut cut path target = true ↔ cut.contains target = true ∧ target ∉ path := by
  rw [freshInCut,Bool.and_eq_true,Bool.not_eq_true',Bool.eq_false_iff,Ne,List.contains_iff_mem]

theorem mem_openRow {path : List NodeId} {target : NodeId} : target ∈ openRow index cut sink maxLen path ↔
    ∃ cur below, path = cur :: below ∧ cur ≠ sink ∧ path.length < maxLen ∧ (cur,target) ∈ index.pairs ∧
      cut.contains target = true ∧ target ∉ path := by
  cases path with
  | nil => simp [openRow]
  | cons cur below =>
    simp only [openRow,List.cons.injEq]
    split
    · next same => simp [same]
    · next differs =>
      split
      · next long =>
        refine ⟨fun member => (by cases member),?_⟩
        rintro ⟨_,_,⟨rfl,rfl⟩,_,short,_⟩
        omega
      · next short =>
        rw [List.mem_filter,ReachabilityIndex.mem_forwardNeighbours,fresh_iff]
        constructor
        · intro found
          exact ⟨cur,below,⟨rfl,rfl⟩,differs,Nat.lt_of_not_le short,found⟩
        · rintro ⟨_,_,⟨rfl,rfl⟩,_,_,found⟩
          exact found

theorem Grounded.next (bounded : ∀ pair ∈ index.pairs, pair.2 < index.nodeCount) {path : List NodeId} {target : NodeId}
    (grounded : Grounded index path) (member : target ∈ openRow index cut sink maxLen path) : Grounded index (target :: path) := by
  obtain ⟨cur,below,rfl,_,_,edge,_,fresh⟩ := mem_openRow.mp member
  refine ⟨List.nodup_cons.mpr ⟨fresh,grounded.distinct⟩,fun node member => ?_⟩
  cases List.mem_cons.mp (show node ∈ target :: (cur :: below).dropLast from member) with
  | inl same => exact same ▸ bounded _ edge
  | inr below => exact grounded.inside node below

theorem routesFrom_cons {cur : NodeId} {below : List NodeId} (grounded : Grounded index (cur :: below)) :
    routesFrom index cut sink maxLen (cur :: below) = if cur = sink then [(cur :: below).reverse]
      else (openRow index cut sink maxLen (cur :: below)).flatMap fun target =>
        routesFrom index cut sink maxLen (target :: cur :: below) := by
  have bound := grounded.bound
  obtain ⟨room,depth⟩ : ∃ room, index.nodeCount + 2 - (cur :: below).length = room + 1 := ⟨_,(Nat.sub_add_cancel (by omega)).symm⟩
  have deeper : ∀ target, index.nodeCount + 2 - (target :: cur :: below).length = room := by
    intro target
    rw [List.length_cons]
    omega
  unfold routesFrom
  rw [depth,events]
  simp only [openRow,deeper]
  split
  · rfl
  · split
    · split <;> rfl
    · rw [List.filterMap_flatMap]

structure Partial (index : ReachabilityIndex) (cut : NodeBitSet) (maxLen : Nat) (src : NodeId) (trail : List NodeId) : Prop where
  starts : trail.getLast? = some src
  edges : trail.IsChain fun b a => (a,b) ∈ index.pairs
  distinct : trail.Nodup
  inside : ∀ node ∈ trail, cut.contains node = true
  short : trail.length ≤ maxLen

theorem Partial.next {src target : NodeId} {trail : List NodeId} (walk : Partial index cut maxLen src trail)
    (member : target ∈ openRow index cut sink maxLen trail) : Partial index cut maxLen src (target :: trail) := by
  obtain ⟨cur,below,rfl,_,short,edge,inside,fresh⟩ := mem_openRow.mp member
  refine ⟨walk.starts,.cons_cons edge walk.edges,List.nodup_cons.mpr ⟨fresh,walk.distinct⟩,?_,short⟩
  intro node found
  cases List.mem_cons.mp found with
  | inl same => exact same ▸ inside
  | inr old => exact walk.inside node old

section
variable (bounded : ∀ pair ∈ index.pairs, pair.2 < index.nodeCount) {src : NodeId}
include bounded

theorem routesFrom_prefixed (room : Nat) {trail path : List NodeId} (depth : room + trail.length = index.nodeCount + 2)
    (grounded : Grounded index trail) (started : trail ≠ []) (route : path ∈ routesFrom index cut sink maxLen trail) :
    trail.reverse <+: path := by
  induction room generalizing trail with
  | zero =>
    have bound := grounded.bound
    omega
  | succ room ih =>
    obtain ⟨cur,below,rfl⟩ := List.exists_cons_of_ne_nil started
    rw [routesFrom_cons grounded] at route
    split at route
    · rw [List.mem_singleton.mp route]
    · obtain ⟨target,member,route⟩ := List.mem_flatMap.mp route
      have later := ih (by rw [List.length_cons]; omega) (grounded.next bounded member) (List.cons_ne_nil _ _) route
      rw [List.reverse_cons (a := target)] at later
      exact (List.prefix_append _ _).trans later

theorem routesFrom_simple (room : Nat) {trail path : List NodeId} (depth : room + trail.length = index.nodeCount + 2)
    (grounded : Grounded index trail) (walk : Partial index cut maxLen src trail)
    (route : path ∈ routesFrom index cut sink maxLen trail) : SimplePath index cut src sink path ∧ path.length ≤ maxLen := by
  induction room generalizing trail with
  | zero =>
    have bound := grounded.bound
    omega
  | succ room ih =>
    cases trail with
    | nil => cases walk.starts
    | cons cur below =>
      rw [routesFrom_cons grounded] at route
      split at route
      · next same =>
        subst same
        rw [List.mem_singleton.mp route]
        refine ⟨⟨?_,?_,?_,?_,?_⟩,?_⟩
        · rw [List.head?_reverse]
          exact walk.starts
        · rw [List.getLast?_reverse]
          rfl
        · exact List.isChain_reverse.mpr walk.edges
        · exact List.nodup_reverse.mpr walk.distinct
        · intro node member
          exact walk.inside node (List.mem_reverse.mp member)
        · rw [List.length_reverse]
          exact walk.short
      · obtain ⟨target,member,route⟩ := List.mem_flatMap.mp route
        exact ih (by rw [List.length_cons]; omega) (grounded.next bounded member) (walk.next member) route

-- A simple path of few enough nodes is a route from each of its beginnings, and one of
-- too many nodes is cut off.
theorem routes_complete (room : Nat) {path trail tail : List NodeId} (simple : SimplePath index cut src sink path)
    (split : path = trail.reverse ++ tail) (depth : room + trail.length = index.nodeCount + 2) (started : trail ≠ [])
    (grounded : Grounded index trail) :
    (path.length ≤ maxLen → path ∈ routesFrom index cut sink maxLen trail) ∧
      (trail.length ≤ maxLen → maxLen < path.length → .cutOff ∈ events index cut sink maxLen room trail) := by
  induction room generalizing trail tail with
  | zero =>
    have bound := grounded.bound
    omega
  | succ room ih =>
    obtain ⟨cur,below,rfl⟩ := List.exists_cons_of_ne_nil started
    cases tail with
    | nil =>
      rw [List.append_nil] at split
      have last : cur = sink := by
        have ends := simple.ends
        rw [split,List.getLast?_reverse] at ends
        exact Option.some.inj ends
      refine ⟨fun _ => ?_,fun short long => ?_⟩
      · rw [routesFrom_cons grounded,if_pos last,split]
        exact List.mem_singleton_self _
      · rw [split,List.length_reverse] at long
        omega
    | cons target rest =>
      obtain ⟨differs,edge,inside,fresh⟩ := simple.onward split
      have counted : path.length = below.length + 1 + (target :: rest).length := by
        rw [split,List.length_append,List.length_reverse,List.length_cons]
      have onward : (cur :: below).length < maxLen → target ∈ openRow index cut sink maxLen (cur :: below) := fun short =>
        mem_openRow.mpr ⟨cur,below,rfl,differs,short,edge,inside,fresh⟩
      have next : (cur :: below).length < maxLen → _ := fun short =>
        ih (show path = (target :: cur :: below).reverse ++ rest by rw [split]; simp)
          (by rw [List.length_cons]; omega) (List.cons_ne_nil _ _) (grounded.next bounded (onward short))
      rw [List.length_cons] at counted
      constructor
      · intro fits
        have short : (cur :: below).length < maxLen := by
          rw [List.length_cons]
          omega
        rw [routesFrom_cons grounded,if_neg differs]
        exact List.mem_flatMap.mpr ⟨target,onward short,(next short).1 fits⟩
      · intro held long
        rw [events,if_neg differs]
        by_cases short : maxLen ≤ (cur :: below).length
        · rw [if_pos short,if_pos]
          · exact List.mem_singleton_self _
          · exact List.any_eq_true.mpr ⟨target,ReachabilityIndex.mem_forwardNeighbours.mpr edge,fresh_iff.mpr ⟨inside,fresh⟩⟩
        · have lower : (cur :: below).length < maxLen := Nat.lt_of_not_le short
          rw [if_neg short]
          refine List.mem_flatMap.mpr ⟨target,?_,(next lower).2 lower long⟩
          exact List.mem_filter.mpr ⟨ReachabilityIndex.mem_forwardNeighbours.mpr edge,fresh_iff.mpr ⟨inside,fresh⟩⟩

-- The first routes repeat a path exactly when a doubled edge comes into play among them.
theorem routes_nodup_iff (room : Nat) {trail : List NodeId} (depth : room + trail.length = index.nodeCount + 2)
    (grounded : Grounded index trail) (started : trail ≠ []) (budget : Nat) :
    ((routesFrom index cut sink maxLen trail).take budget).Nodup ↔ ¬Doubled index cut sink maxLen budget trail := by
  induction room generalizing trail budget with
  | zero =>
    have bound := grounded.bound
    omega
  | succ room ih =>
    obtain ⟨cur,below,rfl⟩ := List.exists_cons_of_ne_nil started
    have deeper : ∀ target, room + (target :: cur :: below).length = index.nodeCount + 2 := by
      intro target
      rw [List.length_cons]
      omega
    rw [routesFrom_cons grounded]
    split
    · next same =>
      have closed : openRow index cut sink maxLen (cur :: below) = [] := if_pos same
      refine iff_of_true ((List.nodup_singleton _).sublist (List.take_sublist _ _)) fun doubled => ?_
      cases doubled with
      | again row | deeper row => exact absurd (closed.symm.trans row) (by simp)
    · have apart : ∀ {a b : NodeId} {path : List NodeId}, a ∈ openRow index cut sink maxLen (cur :: below) →
          b ∈ openRow index cut sink maxLen (cur :: below) → path ∈ routesFrom index cut sink maxLen (a :: cur :: below) →
            path ∈ routesFrom index cut sink maxLen (b :: cur :: below) → a = b := by
        intro a b path here there left right
        have one := routesFrom_prefixed bounded room (deeper a) (grounded.next bounded here) (List.cons_ne_nil _ _) left
        have other := routesFrom_prefixed bounded room (deeper b) (grounded.next bounded there) (List.cons_ne_nil _ _) right
        have same := List.prefix_of_prefix_length_le one other (by simp)
        have equal := same.eq_of_length (by simp)
        exact (List.cons.inj (List.reverse_injective equal)).1
      rw [nodup_take_blocks apart]
      constructor
      · intro clear doubled
        cases doubled with
        | again row twice leads due => exact absurd due (Nat.not_lt.mpr ((clear _ _ _ row).2 twice leads))
        | deeper row doubled =>
          have member : _ ∈ openRow index cut sink maxLen (cur :: below) := row ▸ List.mem_append_right _ List.mem_cons_self
          exact (ih (deeper _) (grounded.next bounded member) (List.cons_ne_nil _ _) _).mp (clear _ _ _ row).1 doubled
      · intro clear earlier target later row
        have member : target ∈ openRow index cut sink maxLen (cur :: below) := row ▸ List.mem_append_right _ List.mem_cons_self
        refine ⟨(ih (deeper _) (grounded.next bounded member) (List.cons_ne_nil _ _) _).mpr fun doubled => clear (.deeper row doubled),?_⟩
        intro twice leads
        by_contra due
        exact clear (.again row twice leads (Nat.lt_of_not_le due))

end

end PathSearch

structure Truthful (index : ReachabilityIndex) (src sink : NodeId) (cut : NodeBitSet) (maxPaths maxLen : Nat)
    (answer : List (List NodeId) × PathTruncation) : Prop where
  simple : ∀ path ∈ answer.1, SimplePath index cut src sink path ∧ sink ∉ path.dropLast ∧ path.length ≤ maxLen
  few : answer.1.length ≤ maxPaths
  distinct : answer.1.Nodup
  complete : answer.2 = .none → ∀ path, SimplePath index cut src sink path → path ∈ answer.1

theorem SimplePath.sink_last {index : ReachabilityIndex} {cut : NodeBitSet} {src sink : NodeId} {path : List NodeId}
    (simple : SimplePath index cut src sink path) : sink ∉ path.dropLast := by
  obtain ⟨front,rfl⟩ := List.getLast?_eq_some_iff.mp simple.ends
  rw [List.dropLast_concat]
  intro member
  exact (List.nodup_append.mp simple.distinct).2.2 sink member sink (List.mem_singleton_self sink) rfl

namespace ReachabilityIndex
open PathSearch
variable {index : ReachabilityIndex} (bounded : ∀ pair ∈ index.pairs, pair.2 < index.nodeCount) {src sink : NodeId}
  {cut : NodeBitSet} {maxPaths maxLen : Nat}

theorem grounded_start (index : ReachabilityIndex) (src : NodeId) : Grounded index [src] where
  distinct := List.nodup_singleton src
  inside node member := by cases member

include bounded

theorem pathsInCut_answer (admitted : cut.contains src = true ∧ cut.contains sink = true) (positive : maxPaths ≠ 0)
    (deep : maxLen ≠ 0) : ∃ truncation,
    index.pathsInCutWithTruncation src sink cut maxPaths maxLen =
      some ((routesFrom index cut sink maxLen [src]).take maxPaths,truncation) ∧
    (truncation = .none → (routesFrom index cut sink maxLen [src]).length ≤ maxPaths ∧
      .cutOff ∉ events index cut sink maxLen (index.nodeCount + 1) [src]) := by
  obtain ⟨out,clear⟩ := observe_all (events index cut sink maxLen (index.nodeCount + 1) [src]) ([],.none)
    (Nat.zero_le (maxPaths + 1))
  generalize seen : (events index cut sink maxLen (index.nodeCount + 1) [src]).foldl (observe (maxPaths + 1)) ([],.none) = found
    at out clear
  have routes : (events index cut sink maxLen (index.nodeCount + 1) [src]).filterMap SearchEvent.path =
      routesFrom index cut sink maxLen [src] := rfl
  simp only [routes,List.nil_append,List.length_nil,Nat.sub_zero] at out
  rw [routes] at clear
  have run : index.pathsInCutWithTruncation src sink cut maxPaths maxLen =
      if maxPaths < found.1.length then some (found.1.take maxPaths,.maxPaths) else some found := by
    unfold pathsInCutWithTruncation
    rw [admitted.1,admitted.2,enumeratePaths_eq bounded,seen,if_neg (by decide),if_neg positive,if_neg deep]
    rfl
  have counted : found.1.length = min (maxPaths + 1) (routesFrom index cut sink maxLen [src]).length := by
    rw [out,List.length_take]
  by_cases many : maxPaths < found.1.length
  · refine ⟨.maxPaths,?_,fun never => by cases never⟩
    rw [run,if_pos many,out,List.take_take,Nat.min_eq_left (Nat.le_succ _)]
  · have few : (routesFrom index cut sink maxLen [src]).length ≤ maxPaths := by omega
    refine ⟨found.2,?_,fun none => ⟨few,(clear none).2 ?_⟩⟩
    · rw [run,if_neg many,List.take_of_length_le few]
      rw [List.take_of_length_le (Nat.le_succ_of_le few)] at out
      rw [← out]
    · simp only [List.length_nil,Nat.zero_add]
      omega

theorem answer_truthful (admitted : cut.contains src = true ∧ cut.contains sink = true) (positive : maxPaths ≠ 0)
    (deep : maxLen ≠ 0) : ∃ answer, index.pathsInCutWithTruncation src sink cut maxPaths maxLen = some answer ∧
      (Truthful index src sink cut maxPaths maxLen answer ↔ ¬Doubled index cut sink maxLen maxPaths [src]) := by
  obtain ⟨truncation,run,clear⟩ := pathsInCut_answer bounded admitted positive deep
  have walk : Partial index cut maxLen src [src] := by
    refine ⟨rfl,.singleton src,List.nodup_singleton src,fun node member => ?_,?_⟩
    · exact List.mem_singleton.mp member ▸ admitted.1
    · exact Nat.pos_of_ne_zero deep
  have depth : index.nodeCount + 1 + [src].length = index.nodeCount + 2 := rfl
  have distinct : ((routesFrom index cut sink maxLen [src]).take maxPaths).Nodup ↔ _ :=
    routes_nodup_iff bounded _ depth (grounded_start index src) (List.cons_ne_nil _ _) maxPaths
  refine ⟨_,run,fun truthful => distinct.mp truthful.distinct,fun once => ⟨?_,?_,distinct.mpr once,?_⟩⟩
  · intro path member
    have simple := routesFrom_simple bounded _ depth (grounded_start index src) walk (List.mem_of_mem_take member)
    exact ⟨simple.1,simple.1.sink_last,simple.2⟩
  · exact List.length_take_le _ _
  · intro none path simple
    obtain ⟨few,whole⟩ := clear none
    obtain ⟨rest,split⟩ : ∃ rest, path = src :: rest := by
      cases path with
      | nil => cases simple.starts
      | cons first rest => exact ⟨rest,by rw [Option.some.inj simple.starts]⟩
    have complete : (path.length ≤ maxLen → path ∈ routesFrom index cut sink maxLen [src]) ∧ _ :=
      routes_complete bounded _ simple (show path = [src].reverse ++ rest from split) depth (List.cons_ne_nil _ _)
        (grounded_start index src)
    rw [List.take_of_length_le few]
    apply complete.1
    by_contra long
    exact whole (complete.2 (Nat.pos_of_ne_zero deep) (Nat.lt_of_not_le long))

end ReachabilityIndex

theorem refused_truthful {index : ReachabilityIndex} {src sink : NodeId} {cut : NodeBitSet} {maxPaths maxLen : Nat}
    (refused : ¬((cut.contains src = true ∧ cut.contains sink = true) ∧ maxPaths ≠ 0 ∧ maxLen ≠ 0)) :
    ∃ answer, index.pathsInCutWithTruncation src sink cut maxPaths maxLen = some answer ∧
      Truthful index src sink cut maxPaths maxLen answer := by
  have nothing : ∀ truncation, (truncation = .none → ¬(cut.contains src = true ∧ cut.contains sink = true)) →
      Truthful index src sink cut maxPaths maxLen ([],truncation) := by
    intro truncation outside
    refine ⟨fun path member => (by cases member),Nat.zero_le _,List.nodup_nil,fun none path simple => ?_⟩
    exact absurd ⟨simple.inside src (List.mem_of_head? simple.starts),simple.inside sink (List.mem_of_getLast? simple.ends)⟩
      (outside none)
  unfold ReachabilityIndex.pathsInCutWithTruncation
  split
  · next outside =>
    refine ⟨_,rfl,nothing _ fun _ inside => ?_⟩
    rw [inside.1,inside.2] at outside
    cases outside
  · next inside =>
    split
    · exact ⟨_,rfl,nothing _ fun never => by cases never⟩
    · next positive =>
      split
      · exact ⟨_,rfl,nothing _ fun never => by cases never⟩
      · next deep =>
        simp only [Bool.or_eq_true,Bool.not_eq_true',not_or,Bool.not_eq_false] at inside
        exact absurd ⟨inside,positive,deep⟩ refused

theorem refused_not_doubled {index : ReachabilityIndex} (bounded : ∀ pair ∈ index.pairs, pair.2 < index.nodeCount)
    {src sink : NodeId} {cut : NodeBitSet} {maxPaths maxLen : Nat} (inside : cut.contains src = true)
    (doubled : PathSearch.Doubled index cut sink maxLen maxPaths [src]) :
    cut.contains sink = true ∧ maxPaths ≠ 0 ∧ maxLen ≠ 0 := by
  have deep : maxLen ≠ 0 := by
    intro none
    subst none
    have closed : PathSearch.openRow index cut sink 0 [src] = [] := by
      change (if src = sink then [] else if 0 ≤ [src].length then [] else _) = []
      rw [if_pos (Nat.zero_le _),ite_self]
    cases doubled with
    | again row | deeper row => exact absurd (closed.symm.trans row) (by simp)
  have once : ((PathSearch.routesFrom index cut sink maxLen [src]).take maxPaths).Nodup ↔ _ :=
    PathSearch.routes_nodup_iff bounded (index.nodeCount + 1) rfl (ReachabilityIndex.grounded_start index src)
      (List.cons_ne_nil _ _) maxPaths
  have repeated : ¬((PathSearch.routesFrom index cut sink maxLen [src]).take maxPaths).Nodup := fun clear =>
    once.mp clear doubled
  refine ⟨?_,?_,deep⟩
  · by_contra outside
    have walk : PathSearch.Partial index cut maxLen src [src] := by
      refine ⟨rfl,.singleton src,List.nodup_singleton src,fun node member => ?_,Nat.pos_of_ne_zero deep⟩
      exact List.mem_singleton.mp member ▸ inside
    have none : PathSearch.routesFrom index cut sink maxLen [src] = [] := by
      refine List.eq_nil_iff_forall_not_mem.mpr fun path route => outside ?_
      have simple := (PathSearch.routesFrom_simple bounded (index.nodeCount + 1) rfl (ReachabilityIndex.grounded_start index src)
        walk route).1
      exact simple.inside sink (List.mem_of_getLast? simple.ends)
    rw [none,List.take_nil] at repeated
    exact repeated List.nodup_nil
  · intro none
    rw [none,List.take_zero] at repeated
    exact repeated List.nodup_nil

-- The enumeration ends and tells the truth, paths and truncation alike, unless two parallel
-- edges come into play before the path budget is spent.
theorem paths_truthful_iff (nodeCount : Nat) (edges : List (Nat × Nat)) (src sink : NodeId) (cut : NodeBitSet)
    (maxPaths maxLen : Nat) :
    (∃ answer, (ReachabilityIndex.fromPairs nodeCount edges).pathsInCutWithTruncation src sink cut maxPaths maxLen = some answer ∧
        Truthful (.fromPairs nodeCount edges) src sink cut maxPaths maxLen answer) ↔
      ¬(cut.contains src = true ∧ PathSearch.Doubled (.fromPairs nodeCount edges) cut sink maxLen maxPaths [src]) := by
  have bounded : ∀ pair ∈ (ReachabilityIndex.fromPairs nodeCount edges).pairs,
      pair.2 < (ReachabilityIndex.fromPairs nodeCount edges).nodeCount :=
    fun pair member => (ReachabilityIndex.mem_fromPairs.mp member).2.2
  generalize ReachabilityIndex.fromPairs nodeCount edges = index at bounded
  by_cases guarded : (cut.contains src = true ∧ cut.contains sink = true) ∧ maxPaths ≠ 0 ∧ maxLen ≠ 0
  · obtain ⟨admitted,positive,deep⟩ := guarded
    obtain ⟨answer,run,exact⟩ := ReachabilityIndex.answer_truthful bounded admitted positive deep
    simp only [run,Option.some.injEq,exists_eq_left',admitted.1,true_and]
    exact exact
  · refine iff_of_true (refused_truthful guarded) fun found => guarded ?_
    obtain ⟨sinkInside,limits⟩ := refused_not_doubled bounded found.1 found.2
    exact ⟨⟨found.1,sinkInside⟩,limits⟩

def parallelEdges : ReachabilityIndex := .fromPairs 2 [(0,1),(0,1)]

theorem parallel_edges_repeat_path :
    parallelEdges.pathsInCutWithTruncation 0 1 (.fromSeed 2 [0,1]) 10 5 = some ([[0,1],[0,1]],.none) ∧
      ¬Truthful parallelEdges 0 1 (.fromSeed 2 [0,1]) 10 5 ([[0,1],[0,1]],.none) := by
  refine ⟨by decide,fun truthful => ?_⟩
  have once := truthful.distinct
  exact absurd once (by decide)

end BonsaiNinja.Idg
