import Mathlib.Data.Set.Insert

namespace BonsaiNinja.Library
open Relation

-- A region of a graph with one entry and one tail. When control enters it (`live`),
-- it gets to exactly the vertices in `alive`: to the tail when it falls through, and
-- out of the region along the jumps.
structure Region {α : Type*} (edge : α → α → Prop) (space : Set α) (entry tail : α) (live falls : Prop) (jumps alive : Set α) :
    Prop where
  entryIn : entry ∈ space
  tailIn : tail ∈ space
  inside : alive ⊆ space
  enters : entry ∈ alive ↔ live
  ends : tail ∈ alive ↔ falls
  closed : ∀ i ∈ alive, i ≠ tail → ∀ j, edge i j → j ∈ alive ∨ j ∈ jumps
  reached : ∀ i ∈ alive, live ∧ ReflTransGen edge entry i
  jumped : ∀ j ∈ jumps, live ∧ ReflTransGen edge entry j

namespace Region
variable {α : Type*} {edge edge' : α → α → Prop} {space space' : Set α} {entry tail middle after start vertex : α}
  {live falls falls' : Prop} {jumps jumps' alive alive' : Set α}

theorem single (vertex : α) (live : Prop) : Region edge {vertex} vertex vertex live live ∅ {i | i = vertex ∧ live} where
  entryIn := rfl
  tailIn := rfl
  inside _ member := member.1
  enters := ⟨And.right,fun enters => ⟨rfl,enters⟩⟩
  ends := ⟨And.right,fun enters => ⟨rfl,enters⟩⟩
  closed _ member apart := absurd member.1 apart
  reached _ member := ⟨member.2,member.1 ▸ .refl⟩
  jumped := nofun

section
variable (region : Region edge space entry tail live falls jumps alive)
include region

theorem widen (wider : space ⊆ space') :
    Region edge space' entry tail live falls jumps alive :=
  { region with
    entryIn := wider region.entryIn
    tailIn := wider region.tailIn
    inside := region.inside.trans wider }

theorem transfer (more : ∀ i j, edge i j → edge' i j)
    (same : ∀ i ∈ space, i ≠ tail → ∀ j, edge' i j → edge i j) : Region edge' space entry tail live falls jumps alive :=
  { region with
    closed := fun i member apart j step => region.closed i member apart j (same i (region.inside member) apart j step)
    reached := fun i member => (region.reached i member).imp id ((ReflTransGen.mono more _ _))
    jumped := fun j member => (region.jumped j member).imp id ((ReflTransGen.mono more _ _)) }

theorem lives (member : vertex ∈ alive) : live :=
  (region.reached vertex member).1

theorem reaches (normal : falls) : ReflTransGen edge entry tail :=
  (region.reached tail (region.ends.mpr normal)).2

theorem lives_of_falls (normal : falls) : live :=
  region.lives (region.ends.mpr normal)

end

-- Two regions one behind the other share the vertex between them.
section sequence
variable (first : Region edge space entry middle live falls jumps alive)
  (second : Region edge space' middle tail falls falls' jumps' alive') (apart : ∀ i ∈ space, i ∈ space' → i = middle)
include first second apart

theorem next_left (member : vertex ∈ space) : vertex ∈ alive ∪ alive' ↔ vertex ∈ alive := by
  refine ⟨fun either => either.elim id fun there => ?_,.inl⟩
  have here := apart vertex member (second.inside there)
  rw [here] at there ⊢
  exact first.ends.mpr (second.enters.mp there)

theorem next_right (member : vertex ∈ space') : vertex ∈ alive ∪ alive' ↔ vertex ∈ alive' := by
  refine ⟨fun either => either.elim (fun here => ?_) id,.inr⟩
  have there := apart vertex (first.inside here) member
  rw [there] at here ⊢
  exact second.enters.mpr (first.ends.mp here)

theorem next : Region edge (space ∪ space') entry tail live falls' (jumps ∪ jumps') (alive ∪ alive') where
  entryIn := .inl first.entryIn
  tailIn := .inr second.tailIn
  inside := Set.union_subset_union first.inside second.inside
  enters := (next_left first second apart first.entryIn).trans first.enters
  ends := (next_right first second apart second.tailIn).trans second.ends
  closed i member far j step := by
    have later : i ∈ alive' → j ∈ alive ∪ alive' ∨ j ∈ jumps ∪ jumps' := fun there =>
      (second.closed i there far j step).imp .inr .inr
    rcases member with here | there
    · by_cases last : i = middle
      · rw [last] at here later
        exact later (second.enters.mpr (first.ends.mp here))
      · exact (first.closed i here last j step).imp .inl .inl
    · exact later there
  reached i member := by
    rcases member with here | there
    · exact first.reached i here
    · obtain ⟨normal,path⟩ := second.reached i there
      exact ⟨first.lives_of_falls normal,(first.reaches normal).trans path⟩
  jumped j member := by
    rcases member with here | there
    · exact first.jumped j here
    · obtain ⟨normal,path⟩ := second.jumped j there
      exact ⟨first.lives_of_falls normal,(first.reaches normal).trans path⟩

end sequence

theorem enter (region : Region edge space entry tail live falls jumps alive) (fresh : start ∉ space)
    (edges : ∀ j, edge start j ↔ j = entry) :
    Region edge (insert start space) start tail live falls jumps ({i | i = start ∧ live} ∪ alive) where
  entryIn := .inl rfl
  tailIn := .inr region.tailIn
  inside i member := member.imp And.left fun here => region.inside here
  enters := ⟨fun either => either.elim And.right region.lives,fun enters => .inl ⟨rfl,enters⟩⟩
  ends := by
    refine ⟨fun either => ?_,fun normal => .inr (region.ends.mpr normal)⟩
    rcases either with ⟨same,_⟩ | here
    · exact absurd (same ▸ region.tailIn) fresh
    · exact region.ends.mp here
  closed i member far j step := by
    rcases member with ⟨rfl,enters⟩ | here
    · rw [(edges j).mp step]
      exact .inl (.inr (region.enters.mpr enters))
    · exact (region.closed i here far j step).imp .inr id
  reached i member := by
    rcases member with ⟨rfl,enters⟩ | here
    · exact ⟨enters,.refl⟩
    · exact (region.reached i here).imp id (.head ((edges entry).mpr rfl))
  jumped j member := (region.jumped j member).imp id (.head ((edges entry).mpr rfl))

theorem link (region : Region edge space entry tail live falls jumps alive) (fresh : after ∉ space)
    (edges : ∀ j, edge tail j ↔ j = after) :
    Region edge (insert after space) entry after live falls jumps ({i | i = after ∧ falls} ∪ alive) where
  entryIn := .inr region.entryIn
  tailIn := .inl rfl
  inside i member := member.imp And.left fun here => region.inside here
  enters := by
    refine ⟨fun either => ?_,fun enters => .inr (region.enters.mpr enters)⟩
    rcases either with ⟨same,_⟩ | here
    · exact absurd (same ▸ region.entryIn) fresh
    · exact region.enters.mp here
  ends := by
    refine ⟨fun either => ?_,fun normal => .inl ⟨rfl,normal⟩⟩
    rcases either with ⟨_,normal⟩ | here
    · exact normal
    · exact absurd (region.inside here) fresh
  closed i member far j step := by
    rcases member with ⟨same,_⟩ | here
    · exact absurd same far
    · by_cases last : i = tail
      · rw [last] at here step
        rw [(edges j).mp step]
        exact .inl (.inl ⟨rfl,region.ends.mp here⟩)
      · exact (region.closed i here last j step).imp .inr id
  reached i member := by
    rcases member with ⟨rfl,normal⟩ | here
    · exact ⟨region.lives_of_falls normal,(region.reaches normal).tail ((edges i).mpr rfl)⟩
    · exact region.reached i here
  jumped := region.jumped

theorem arrive {target : α} (step : edge vertex target) :
    Region edge {vertex} vertex vertex live live {j | j = target ∧ live} {i | i = vertex ∧ live} :=
  { (single vertex live : Region edge {vertex} vertex vertex live live ∅ {i | i = vertex ∧ live}) with
    closed := fun _ member apart => absurd member.1 apart
    jumped := fun j member => ⟨member.2,by rw [member.1]; exact .single step⟩ }

theorem stop (region : Region edge space entry tail live falls jumps alive) (fresh : after ∉ space)
    (edges : falls → ∀ j, edge tail j → j ∈ jumps) : Region edge (insert after space) entry after live False jumps alive where
  entryIn := .inr region.entryIn
  tailIn := .inl rfl
  inside _ member := .inr (region.inside member)
  enters := region.enters
  ends := ⟨fun here => fresh (region.inside here),False.elim⟩
  closed i member _ j step := by
    by_cases last : i = tail
    · rw [last] at member step
      exact .inr (edges (region.ends.mp member) j step)
    · exact region.closed i member last j step
  reached := region.reached
  jumped := region.jumped

-- A vertex that two regions start from, and one that both lead to.
section fork
variable {left right leftTail rightTail join : α} {leftSpace rightSpace leftJumps rightJumps leftAlive rightAlive : Set α}
  {leftFalls rightFalls : Prop}

theorem fork (one : Region edge leftSpace left leftTail live leftFalls leftJumps leftAlive)
    (two : Region edge rightSpace right rightTail live rightFalls rightJumps rightAlive)
    (forks : ∀ j, edge start j ↔ j = left ∨ j = right) (leftEdges : ∀ j, edge leftTail j ↔ j = join)
    (rightEdges : ∀ j, edge rightTail j ↔ j = join)
    (startFresh : start ∉ leftSpace ∪ rightSpace) (joinFresh : join ∉ leftSpace ∪ rightSpace) (other : start ≠ join) :
    Region edge (insert start (insert join (leftSpace ∪ rightSpace))) start join live (leftFalls ∨ rightFalls)
      (leftJumps ∪ rightJumps)
      ({i | i = start ∧ live} ∪ {i | i = join ∧ (leftFalls ∨ rightFalls)} ∪ (leftAlive ∪ rightAlive)) where
  entryIn := .inl rfl
  tailIn := .inr (.inl rfl)
  inside i member := by
    rcases member with (⟨rfl,_⟩ | ⟨rfl,_⟩) | here | there
    · exact .inl rfl
    · exact .inr (.inl rfl)
    · exact .inr (.inr (.inl (one.inside here)))
    · exact .inr (.inr (.inr (two.inside there)))
  enters := by
    refine ⟨fun member => ?_,fun enters => .inl (.inl ⟨rfl,enters⟩)⟩
    rcases member with (⟨_,enters⟩ | ⟨same,_⟩) | here | there
    · exact enters
    · exact absurd same other
    · exact one.lives here
    · exact two.lives there
  ends := by
    refine ⟨fun member => ?_,fun normal => .inl (.inr ⟨rfl,normal⟩)⟩
    rcases member with (⟨same,_⟩ | ⟨_,normal⟩) | here | there
    · exact absurd same.symm other
    · exact normal
    · exact absurd (.inl (one.inside here)) joinFresh
    · exact absurd (.inr (two.inside there)) joinFresh
  closed i member far j step := by
    rcases member with (⟨rfl,enters⟩ | ⟨same,_⟩) | here | there
    · rcases (forks j).mp step with rfl | rfl
      · exact .inl (.inr (.inl (one.enters.mpr enters)))
      · exact .inl (.inr (.inr (two.enters.mpr enters)))
    · exact absurd same far
    · by_cases last : i = leftTail
      · rw [last] at here step
        rw [(leftEdges j).mp step]
        exact .inl (.inl (.inr ⟨rfl,.inl (one.ends.mp here)⟩))
      · exact (one.closed i here last j step).imp (.inr ∘ .inl) .inl
    · by_cases last : i = rightTail
      · rw [last] at there step
        rw [(rightEdges j).mp step]
        exact .inl (.inl (.inr ⟨rfl,.inr (two.ends.mp there)⟩))
      · exact (two.closed i there last j step).imp (.inr ∘ .inr) .inr
  reached i member := by
    have toLeft : edge start left := (forks left).mpr (.inl rfl)
    have toRight : edge start right := (forks right).mpr (.inr rfl)
    rcases member with (⟨rfl,enters⟩ | ⟨rfl,normal | normal⟩) | here | there
    · exact ⟨enters,.refl⟩
    · exact ⟨one.lives_of_falls normal,.head toLeft ((one.reaches normal).tail ((leftEdges i).mpr rfl))⟩
    · exact ⟨two.lives_of_falls normal,.head toRight ((two.reaches normal).tail ((rightEdges i).mpr rfl))⟩
    · exact (one.reached i here).imp id (.head toLeft)
    · exact (two.reached i there).imp id (.head toRight)
  jumped j member := by
    rcases member with here | there
    · exact (one.jumped j here).imp id (.head ((forks left).mpr (.inl rfl)))
    · exact (two.jumped j there).imp id (.head ((forks right).mpr (.inr rfl)))

theorem mem_left {p q : Prop} (member : vertex ∈ leftSpace) (startFresh : start ∉ leftSpace) (joinFresh : join ∉ leftSpace)
    (apart : vertex ∉ rightAlive) :
    vertex ∈ {i | i = start ∧ p} ∪ {i | i = join ∧ q} ∪ (leftAlive ∪ rightAlive) ↔ vertex ∈ leftAlive := by
  refine ⟨fun either => ?_,fun here => .inr (.inl here)⟩
  rcases either with (⟨rfl,_⟩ | ⟨rfl,_⟩) | here | there
  · exact absurd member startFresh
  · exact absurd member joinFresh
  · exact here
  · exact absurd there apart

theorem mem_right {p q : Prop} (member : vertex ∈ rightSpace) (startFresh : start ∉ rightSpace) (joinFresh : join ∉ rightSpace)
    (apart : vertex ∉ leftAlive) :
    vertex ∈ {i | i = start ∧ p} ∪ {i | i = join ∧ q} ∪ (leftAlive ∪ rightAlive) ↔ vertex ∈ rightAlive := by
  rw [Set.union_comm leftAlive]
  exact mem_left member startFresh joinFresh apart

end fork

-- A region that a jump of the one in front of it may enter as well.
section resume
variable {body update bodyTail updateTail : α} {bodySpace updateSpace bodyJumps updateJumps bodyAlive updateAlive : Set α}
  {bodyFalls updateLive updateFalls continued : Prop}

theorem resume (one : Region edge bodySpace body bodyTail live bodyFalls bodyJumps bodyAlive)
    (two : Region edge updateSpace update updateTail updateLive updateFalls updateJumps updateAlive)
    (edges : ∀ j, edge bodyTail j ↔ j = update) (apart : ∀ i ∈ bodySpace, i ∉ updateSpace)
    (lively : updateLive ↔ bodyFalls ∨ continued) (jumps : continued → update ∈ bodyJumps) :
    Region edge (bodySpace ∪ updateSpace) body updateTail live updateFalls (bodyJumps ∪ updateJumps) (bodyAlive ∪ updateAlive) := by
  have path : updateLive → live ∧ ReflTransGen edge body update := by
    intro enters
    rcases lively.mp enters with normal | again
    · exact ⟨one.lives_of_falls normal,(one.reaches normal).tail ((edges update).mpr rfl)⟩
    · exact one.jumped update (jumps again)
  exact
    { entryIn := .inl one.entryIn
      tailIn := .inr two.tailIn
      inside := Set.union_subset_union one.inside two.inside
      enters := by
        refine ⟨fun member => ?_,fun enters => .inl (one.enters.mpr enters)⟩
        rcases member with here | there
        · exact one.lives here
        · exact absurd (two.inside there) (apart body one.entryIn)
      ends := by
        refine ⟨fun member => ?_,fun normal => .inr (two.ends.mpr normal)⟩
        rcases member with here | there
        · exact absurd two.tailIn (apart updateTail (one.inside here))
        · exact two.ends.mp there
      closed := fun i member far j step => by
        rcases member with here | there
        · by_cases last : i = bodyTail
          · rw [last] at here step
            rw [(edges j).mp step]
            exact .inl (.inr (two.enters.mpr (lively.mpr (.inl (one.ends.mp here)))))
          · exact (one.closed i here last j step).imp .inl .inl
        · exact (two.closed i there far j step).imp .inr .inr
      reached := fun i member => by
        rcases member with here | there
        · exact one.reached i here
        · obtain ⟨enters,rest⟩ := two.reached i there
          exact (path enters).imp id (·.trans rest)
      jumped := fun j member => by
        rcases member with here | there
        · exact one.jumped j here
        · obtain ⟨enters,rest⟩ := two.jumped j there
          exact (path enters).imp id (·.trans rest) }

end resume

-- A loop of a test and a body, entered at either. Some jumps of the body stay in it.
section loop
variable {first header body testTail bodyTail : α} {testSpace bodySpace testJumps bodyJumps testAlive bodyAlive outer : Set α}
  {testLive testFalls bodyLive bodyFalls continued mayLeave broken : Prop}

theorem loop (test : Region edge testSpace header testTail testLive testFalls testJumps testAlive)
    (inner : Region edge bodySpace body bodyTail bodyLive bodyFalls bodyJumps bodyAlive)
    (starts : ∀ j, edge start j ↔ j = first) (tests : ∀ j, edge testTail j ↔ j = body ∨ mayLeave ∧ j = after)
    (backs : ∀ j, edge bodyTail j ↔ j = header)
    (startFresh : start ∉ testSpace ∪ bodySpace) (afterFresh : after ∉ testSpace ∪ bodySpace) (other : start ≠ after)
    (phase : first = header ∧ (testLive ↔ live) ∧ (bodyLive ↔ testFalls) ∨
      first = body ∧ (bodyLive ↔ live) ∧ (testLive ↔ bodyFalls ∨ continued))
    (jumps : ∀ j ∈ bodyJumps, j = after ∧ broken ∨ j ∈ bodyAlive ∨ j = header ∧ testLive ∨ j ∈ outer)
    (breaks : broken → after ∈ bodyJumps) (continues : continued → header ∈ bodyJumps) (outside : outer ⊆ bodyJumps) :
    Region edge (insert start (insert after (testSpace ∪ bodySpace))) start after live (testFalls ∧ mayLeave ∨ broken)
      (testJumps ∪ outer)
      ({i | i = start ∧ live} ∪ {i | i = after ∧ (testFalls ∧ mayLeave ∨ broken)} ∪ (testAlive ∪ bodyAlive)) := by
  have toBody : edge testTail body := (tests body).mpr (.inl rfl)
  have toHeader : edge bodyTail header := (backs header).mpr rfl
  -- What each part is entered by.
  have reachTest : testLive → live ∧ ReflTransGen edge start header := by
    intro enters
    rcases phase with ⟨rfl,same,_⟩ | ⟨rfl,same,again⟩
    · exact ⟨same.mp enters,.single ((starts first).mpr rfl)⟩
    · have begin_ : edge start first := (starts first).mpr rfl
      rcases again.mp enters with normal | jump
      · exact ⟨same.mp (inner.lives_of_falls normal),.head begin_ ((inner.reaches normal).tail toHeader)⟩
      · obtain ⟨entered,path⟩ := inner.jumped header (continues jump)
        exact ⟨same.mp entered,.head begin_ path⟩
  have reachBody : bodyLive → live ∧ ReflTransGen edge start body := by
    intro enters
    rcases phase with ⟨rfl,same,next⟩ | ⟨rfl,same,_⟩
    · have normal := next.mp enters
      exact ⟨same.mp (test.lives_of_falls normal),.head ((starts first).mpr rfl) ((test.reaches normal).tail toBody)⟩
    · exact ⟨same.mp enters,.single ((starts first).mpr rfl)⟩
  have bodyLives : testFalls → bodyLive := by
    intro normal
    rcases phase with ⟨_,_,next⟩ | ⟨_,same,_⟩
    · exact next.mpr normal
    · exact same.mpr (reachTest (test.lives_of_falls normal)).1
  have testLives : bodyFalls → testLive := by
    intro normal
    rcases phase with ⟨_,same,_⟩ | ⟨_,_,again⟩
    · exact same.mpr (reachBody (inner.lives_of_falls normal)).1
    · exact again.mpr (.inl normal)
  have bodyReached : ∀ i, bodyLive ∧ ReflTransGen edge body i → live ∧ ReflTransGen edge start i := fun i path =>
    (reachBody path.1).imp id (·.trans path.2)
  have testReached : ∀ i, testLive ∧ ReflTransGen edge header i → live ∧ ReflTransGen edge start i := fun i path =>
    (reachTest path.1).imp id (·.trans path.2)
  exact
    { entryIn := .inl rfl
      tailIn := .inr (.inl rfl)
      inside := fun i member => by
        rcases member with (⟨rfl,_⟩ | ⟨rfl,_⟩) | here | there
        · exact .inl rfl
        · exact .inr (.inl rfl)
        · exact .inr (.inr (.inl (test.inside here)))
        · exact .inr (.inr (.inr (inner.inside there)))
      enters := by
        refine ⟨fun member => ?_,fun enters => .inl (.inl ⟨rfl,enters⟩)⟩
        rcases member with (⟨_,enters⟩ | ⟨same,_⟩) | here | there
        · exact enters
        · exact absurd same other
        · exact absurd (.inl (test.inside here)) startFresh
        · exact absurd (.inr (inner.inside there)) startFresh
      ends := by
        refine ⟨fun member => ?_,fun normal => .inl (.inr ⟨rfl,normal⟩)⟩
        rcases member with (⟨same,_⟩ | ⟨_,normal⟩) | here | there
        · exact absurd same.symm other
        · exact normal
        · exact absurd (.inl (test.inside here)) afterFresh
        · exact absurd (.inr (inner.inside there)) afterFresh
      closed := fun i member far j step => by
        rcases member with (⟨rfl,enters⟩ | ⟨same,_⟩) | here | there
        · rw [(starts j).mp step]
          rcases phase with ⟨rfl,same,_⟩ | ⟨rfl,same,_⟩
          · exact .inl (.inr (.inl (test.enters.mpr (same.mpr enters))))
          · exact .inl (.inr (.inr (inner.enters.mpr (same.mpr enters))))
        · exact absurd same far
        · by_cases last : i = testTail
          · rw [last] at here step
            have normal := test.ends.mp here
            rcases (tests j).mp step with rfl | ⟨may,rfl⟩
            · exact .inl (.inr (.inr (inner.enters.mpr (bodyLives normal))))
            · exact .inl (.inl (.inr ⟨rfl,.inl ⟨normal,may⟩⟩))
          · exact (test.closed i here last j step).imp (.inr ∘ .inl) .inl
        · by_cases last : i = bodyTail
          · rw [last] at there step
            rw [(backs j).mp step]
            exact .inl (.inr (.inl (test.enters.mpr (testLives (inner.ends.mp there)))))
          · rcases inner.closed i there last j step with inside | leaves
            · exact .inl (.inr (.inr inside))
            · rcases jumps j leaves with ⟨rfl,broke⟩ | inside | ⟨rfl,again⟩ | away
              · exact .inl (.inl (.inr ⟨rfl,.inr broke⟩))
              · exact .inl (.inr (.inr inside))
              · exact .inl (.inr (.inl (test.enters.mpr again)))
              · exact .inr (.inr away)
      reached := fun i member => by
        rcases member with (⟨rfl,enters⟩ | ⟨rfl,⟨normal,may⟩ | broke⟩) | here | there
        · exact ⟨enters,.refl⟩
        · exact testReached i ⟨test.lives_of_falls normal,(test.reaches normal).tail ((tests i).mpr (.inr ⟨may,rfl⟩))⟩
        · exact bodyReached i (inner.jumped i (breaks broke))
        · exact testReached i (test.reached i here)
        · exact bodyReached i (inner.reached i there)
      jumped := fun j member => by
        rcases member with here | there
        · exact testReached j (test.jumped j here)
        · exact bodyReached j (inner.jumped j (outside there)) }

end loop

-- A region that only a sink is behind holds all else that its entry leads to.
theorem reaches_iff {sink : α} (region : Region edge space entry tail True falls jumps alive) (sinks : ∀ j, ¬edge sink j)
    (last : ∀ j, edge tail j → j = sink) (leaves : ∀ j ∈ jumps, j = sink) (other : vertex ≠ sink) :
    ReflTransGen edge entry vertex ↔ vertex ∈ alive := by
  constructor
  · intro path
    have either : vertex ∈ alive ∨ vertex = sink := by
      clear other
      induction path with
      | refl => exact .inl (region.enters.mpr trivial)
      | @tail i j _ step ih =>
        rcases ih with here | rfl
        · by_cases final : i = tail
          · exact .inr (last j (final ▸ step))
          · exact (region.closed i here final j step).imp id (leaves j)
        · exact absurd step (sinks j)
    exact either.resolve_right other
  · exact fun here => (region.reached vertex here).2

end Region

end BonsaiNinja.Library
