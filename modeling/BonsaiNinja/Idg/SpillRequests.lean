import BonsaiNinja.Idg.SpillHistory
import BonsaiNinja.Library.Paging

namespace BonsaiNinja.Idg
open Library

inductive SpillRequest
  | insert (key : U128)
  | contains (key : U128)
  | len
  | keysWithPrefixBatch (head : U32) (after : Option U128) (limit : Nat)

inductive SpillAnswer
  | flag (answer : Bool)
  | count (entries : Nat)
  | keys (page : List U128)
  deriving DecidableEq

def SpillRequest.asksPage : SpillRequest → Bool
  | .keysWithPrefixBatch .. => true
  | _ => false

def SpillSet.answer (set : SpillSet) : SpillRequest → Option (SpillAnswer × SpillSet)
  | .insert key => (set.insert key).map fun (added,set) => (.flag added,set)
  | .contains key => (set.contains key).map fun (found,set) => (.flag found,set)
  | .len => some (.count set.len,set)
  | .keysWithPrefixBatch head after limit => (set.keysWithPrefixBatch head after limit).map fun page => (.keys page,set)

def SpillSet.serve (set : SpillSet) : List SpillRequest → Option (List SpillAnswer × SpillSet)
  | [] => some ([],set)
  | request :: rest => do
    let (answer,set) ← set.answer request
    let (answers,set) ← set.serve rest
    return (answer :: answers,set)

namespace KeyHistory

def answer (history : KeyHistory) : SpillRequest → SpillAnswer × KeyHistory
  | .insert key => (.flag (decide (key ∉ history)),key :: history)
  | .contains key => (.flag (decide (key ∈ history)),history)
  | .len => (.count history.dedup.length,history)
  | .keysWithPrefixBatch head after limit => (.keys (history.page head after (max limit 1)),history)

def serve (history : KeyHistory) : List SpillRequest → List SpillAnswer × KeyHistory
  | [] => ([],history)
  | request :: rest =>
    ((history.answer request).1 :: ((history.answer request).2.serve rest).1,((history.answer request).2.serve rest).2)

def prefixKeys (history : KeyHistory) (head : U32) : List U128 :=
  sortDedup (history.filter fun key => SpillSet.topWord key = head)

theorem page_eq (history : KeyHistory) (head : U32) (after : Option U128) (limit : Nat) :
    history.page head after limit = (afterCursor (history.prefixKeys head) after).take limit := by
  refine congrArg (List.take limit) (Sorted.ext (sortDedup_sorted _) (afterCursor_sorted (sortDedup_sorted _) after) fun key => ?_)
  rw [mem_sortDedup,List.mem_filter,inPage]
  cases after with
  | none => simp [afterCursor,prefixKeys]
  | some last => simp [afterCursor,prefixKeys,and_assoc]

theorem page_last {history : KeyHistory} {head : U32} {after : Option U128} {limit : Nat} (positive : 0 < limit) {key : U128}
    (member : key ∈ afterCursor (history.prefixKeys head) after) :
    key ∈ history.page head after limit ∨ ∃ last, (history.page head after limit).getLast? = some last ∧ before last key = true := by
  rw [page_eq]
  have sorted : Sorted (afterCursor (history.prefixKeys head) after) := afterCursor_sorted (sortDedup_sorted _) after
  cases ends : ((afterCursor (history.prefixKeys head) after).take limit).getLast? with
  | none =>
    have empty := List.take_eq_nil_iff.mp (List.getLast?_eq_none_iff.mp ends)
    cases empty with
    | inl zero => omega
    | inr nil =>
      rw [nil] at member
      exact absurd member List.not_mem_nil
  | some last =>
    rw [← List.take_append_drop limit (afterCursor (history.prefixKeys head) after)] at member
    cases List.mem_append.mp member with
    | inl here => exact .inl here
    | inr later =>
      refine .inr ⟨last,rfl,?_⟩
      rw [← filter_after_page sorted ends] at later
      exact (List.mem_filter.mp later).2

end KeyHistory

namespace SpillSet
variable {set : SpillSet} {track : Bool} {history : KeyHistory} {held : List (List U128)}

theorem answer_exact (holds : set.Holds track history held) {request : SpillRequest}
    (tracked : request.asksPage = true → track = true) :
    ∃ next held', set.answer request = some ((history.answer request).1,next) ∧
      next.Holds track (history.answer request).2 held' := by
  cases request with
  | insert key =>
    obtain ⟨next,held',inserted,nextHolds⟩ := insert_exact holds key
    exact ⟨next,held',by rw [answer,inserted]; rfl,nextHolds⟩
  | contains key =>
    obtain ⟨next,found,nextHolds⟩ := contains_exact holds key
    exact ⟨next,held,by rw [answer,found]; rfl,nextHolds⟩
  | len => exact ⟨set,held,by rw [answer,holds.counted]; rfl,holds⟩
  | keysWithPrefixBatch head after limit =>
    obtain rfl := tracked rfl
    exact ⟨set,held,by rw [answer,page_exact holds]; rfl,holds⟩

theorem serve_exact {requests : List SpillRequest} (holds : set.Holds track history held)
    (tracked : ∀ request ∈ requests, request.asksPage = true → track = true) :
    ∃ final held', set.serve requests = some ((history.serve requests).1,final) ∧
      final.Holds track (history.serve requests).2 held' := by
  induction requests generalizing set history held with
  | nil => exact ⟨set,held,rfl,holds⟩
  | cons request rest ih =>
    obtain ⟨next,held',answered,nextHolds⟩ := answer_exact holds (tracked request List.mem_cons_self)
    obtain ⟨final,held',served,finalHolds⟩ := ih nextHolds fun later member => tracked later (List.mem_cons_of_mem _ member)
    refine ⟨final,held',?_,finalHolds⟩
    simp only [serve,answered,served,Option.bind_eq_bind,Option.bind_some]
    rfl

def pages (set : SpillSet) (head : U32) (limit : Nat) : Nat → Option U128 → Option (List (List U128))
  | 0, _ => none
  | fuel + 1, after => do
    let page ← set.keysWithPrefixBatch head after limit
    match page.getLast? with
    | none => return [page]
    | some last =>
      let later ← set.pages head limit fuel (some last)
      return page :: later

theorem pages_exact (holds : set.Holds true history held) (head : U32) {limit : Nat} (positive : 0 < limit) {fuel : Nat}
    {after : Option U128} (enough : (afterCursor (history.prefixKeys head) after).length < fuel) :
    ∃ pages, set.pages head limit fuel after = some pages ∧ pages.getLast? = some [] ∧
      pages.flatten = afterCursor (history.prefixKeys head) after := by
  have bound : max limit 1 = limit := Nat.max_eq_left positive
  induction fuel generalizing after with
  | zero => exact absurd enough (Nat.not_lt_zero _)
  | succ fuel ih =>
    simp only [pages,page_exact holds,bound,KeyHistory.page_eq,Option.bind_eq_bind,Option.bind_some]
    cases ends : ((afterCursor (history.prefixKeys head) after).take limit).getLast? with
    | none =>
      have empty := List.getLast?_eq_none_iff.mp ends
      have nil : afterCursor (history.prefixKeys head) after = [] :=
        (List.take_eq_nil_iff.mp empty).resolve_left (Nat.ne_of_gt positive)
      rw [nil,List.take_nil]
      exact ⟨[[]],rfl,rfl,rfl⟩
    | some last =>
      have next := afterCursor_next (sortDedup_sorted _) ends
      have longer : 0 < (afterCursor (history.prefixKeys head) after).length :=
        List.length_pos_of_mem (List.mem_of_mem_take (List.mem_of_getLast? ends))
      have shorter : (afterCursor (history.prefixKeys head) (some last)).length < fuel := by
        rw [KeyHistory.prefixKeys,next,List.length_drop,← KeyHistory.prefixKeys]
        omega
      obtain ⟨later,turned,emptied,rest⟩ := ih shorter
      refine ⟨(afterCursor (history.prefixKeys head) after).take limit :: later,?_,?_,?_⟩
      · simp only [turned,Option.bind_some]
        rfl
      · rw [List.getLast?_cons,emptied]
        rfl
      · rw [List.flatten_cons,rest,KeyHistory.prefixKeys,next,List.take_append_drop]

end SpillSet

-- Every answer is the answer of the plain history of insertions, whatever the
-- budgets; so no filter, cache, flush or merge shows.
theorem spill_answers_exact (maxResidentEntries bloomBytes recentPositiveBytes : Nat) (track : Bool)
    (requests : List SpillRequest) (tracked : ∀ request ∈ requests, request.asksPage = true → track = true) :
    ∃ final, (SpillSet.new maxResidentEntries bloomBytes recentPositiveBytes track).serve requests =
        some ((KeyHistory.serve [] requests).1,final) ∧
      final.len = (KeyHistory.serve [] requests).2.dedup.length := by
  obtain ⟨final,_,served,holds⟩ := SpillSet.serve_exact
    (SpillSet.new_holds maxResidentEntries bloomBytes recentPositiveBytes track) tracked
  exact ⟨final,served,holds.counted⟩

theorem boundary_key_answers_exact : ∃ final,
    (SpillSet.new 1 0 0 true).serve [.insert 0,.insert (Fin.last _),.contains 0,.insert 0,
      .keysWithPrefixBatch (Fin.last _) none 1,.len] =
        some ([.flag true,.flag true,.flag true,.flag false,.keys [Fin.last _],.count 2],final) ∧
      final.len = 2 :=
  spill_answers_exact 1 0 0 true _ fun _ _ _ => rfl

-- Paging delivers the keys of a prefix once each, in order; a page read after
-- further insertions skips no key behind its cursor.
theorem prefix_pages_exact (maxResidentEntries bloomBytes recentPositiveBytes : Nat) (requests : List SpillRequest)
    (head : U32) {limit : Nat} (positive : 0 < limit) :
    ∃ answers set, (SpillSet.new maxResidentEntries bloomBytes recentPositiveBytes true).serve requests =
        some (answers,set) ∧
      (∃ turns pages, set.pages head limit turns none = some pages ∧ pages.getLast? = some [] ∧ Sorted pages.flatten ∧
        ∀ key, key ∈ pages.flatten ↔ key ∈ (KeyHistory.serve [] requests).2 ∧ SpillSet.topWord key = head) ∧
      ∀ after, ∃ page, set.keysWithPrefixBatch head after limit = some page ∧
        ∀ key ∈ (KeyHistory.serve [] requests).2, SpillSet.topWord key = head → after.all (before · key) = true →
          key ∈ page ∨ ∃ last, page.getLast? = some last ∧ before last key = true := by
  obtain ⟨set,_,served,holds⟩ := SpillSet.serve_exact
    (SpillSet.new_holds maxResidentEntries bloomBytes recentPositiveBytes true) fun _ _ _ => rfl
  refine ⟨_,set,served,?_,fun after => ?_⟩
  · obtain ⟨pages,turned,emptied,whole⟩ := SpillSet.pages_exact holds head positive (Nat.lt_succ_self _)
    refine ⟨_,pages,turned,emptied,?_,fun key => ?_⟩
    · rw [whole]
      exact sortDedup_sorted _
    · rw [whole,afterCursor,KeyHistory.prefixKeys,mem_sortDedup,List.mem_filter,decide_eq_true_eq]
  · refine ⟨_,SpillSet.page_exact holds head after limit,fun key inserted top behind => ?_⟩
    rw [Nat.max_eq_left positive]
    apply KeyHistory.page_last positive
    have member : key ∈ KeyHistory.prefixKeys (KeyHistory.serve [] requests).2 head :=
      mem_sortDedup.mpr (List.mem_filter.mpr ⟨inserted,decide_eq_true top⟩)
    cases after with
    | none => exact member
    | some last => exact List.mem_filter.mpr ⟨member,behind⟩

theorem top_prefix_pages_exact : ∃ answers set, (SpillSet.new 1 8 17 true).serve [.insert (Fin.last _),.insert 3] =
      some (answers,set) ∧
    (∃ turns pages, set.pages (Fin.last _) 1 turns none = some pages ∧ pages.getLast? = some [] ∧ Sorted pages.flatten ∧
      ∀ key, key ∈ pages.flatten ↔ key ∈ [3,Fin.last _] ∧ SpillSet.topWord key = Fin.last _) ∧
    ∀ after, ∃ page, set.keysWithPrefixBatch (Fin.last _) after 1 = some page ∧
      ∀ key ∈ [3,Fin.last _], SpillSet.topWord key = Fin.last _ → after.all (before · key) = true →
        key ∈ page ∨ ∃ last, page.getLast? = some last ∧ before last key = true :=
  prefix_pages_exact 1 8 17 [.insert (Fin.last _),.insert 3] (Fin.last _) (by decide)

end BonsaiNinja.Idg
