import BonsaiNinja.Idg.NodeBitSet
import BonsaiNinja.Idg.SymbolicRuntime
import BonsaiNinja.Library.Decoding
import BonsaiNinja.Library.RecordFile

namespace BonsaiNinja.Idg
open Library

instance : RecordCodec (BitVec 64) where
  width := 8
  encode word := leBytes 8 word.toNat
  decode record := BitVec.ofNat 64 (leValue record)
  positive := by decide
  sized word := leBytes_length 8 word.toNat
  inverse word := by rw [leValue_leBytes (word.isLt.trans_le (by decide)), BitVec.ofNat_toNat, BitVec.setWidth_eq]

structure SymbolicFieldDemand where
  bases : List (BitVec 64)
  demanded : Nat

namespace SymbolicFieldDemand

def fromBits (bits : List (BitVec 64)) : SymbolicFieldDemand :=
  ⟨bits,(bits.map fun word => (WordBits.setBits word).length).sum⟩

def isEmpty (demand : SymbolicFieldDemand) : Bool := demand.demanded == 0

def contains (demand : SymbolicFieldDemand) (base _field : Nat) : Bool :=
  match demand.bases[base / 64]? with
  | none => false
  | some word => word &&& nodeMask base != 0#64

def encode (demand : SymbolicFieldDemand) : List UInt8 := wire demand.bases

def decode (bytes : List UInt8) : Except String SymbolicFieldDemand :=
  if bytes.length % 8 ≠ 0 then .error "symbolic field demand blob has a malformed length"
  else .ok (fromBits (chunksExact bytes))

theorem contains_eq (bits : List (BitVec 64)) (base field : Nat) : (fromBits bits).contains base field = bitAt bits base := by
  unfold contains fromBits bitAt wordAt
  rw [List.getD_eq_getElem?_getD]
  cases bits[base / 64]? with
  | none => simp
  | some word => exact WordBits.and_mask_ne_zero (Nat.mod_lt base (by decide))

theorem decode_encode (demand : SymbolicFieldDemand) : decode demand.encode = .ok (fromBits demand.bases) := by
  have whole : demand.encode.length % 8 = 0 := by
    rw [encode, wire_length]
    exact Nat.mul_mod_left _ _
  rw [decode, if_neg (not_not_intro whole), encode, chunksExact_wire]

end SymbolicFieldDemand

structure DemandFrontier where
  bits : List (BitVec 64)
  frontier : List Nat

namespace DemandFrontier

def grown (bits : List (BitVec 64)) (base : Nat) : List (BitVec 64) :=
  if bits.length ≤ base / 64 then bits ++ List.replicate (base / 64 + 1 - bits.length) 0#64 else bits

def admitBase (s : DemandFrontier) (base : Nat) : DemandFrontier :=
  let bits := grown s.bits base
  if wordAt bits (base / 64) &&& nodeMask base != 0#64 then ⟨bits,s.frontier⟩
  else ⟨bits.set (base / 64) (wordAt bits (base / 64) ||| nodeMask base),s.frontier ++ [base]⟩

def admitAll (s : DemandFrontier) (candidates : List Nat) : DemandFrontier := candidates.foldl admitBase s

end DemandFrontier

namespace SymbolicRuntimeIndex
variable (runtime : SymbolicRuntimeIndex)

def expandDemand : Nat → DemandFrontier → List (BitVec 64)
  | 0, s => s.bits
  | fuel + 1, s =>
    if s.frontier.isEmpty then s.bits
    else expandDemand fuel (DemandFrontier.admitAll ⟨s.bits,[]⟩ (s.frontier.flatMap runtime.demandSources))

def compileSymbolicFieldDemand : SymbolicFieldDemand :=
  .fromBits (runtime.expandDemand (runtime.demandCapacity + 1) (DemandFrontier.admitAll ⟨[],[]⟩ runtime.demandSeeds))

end SymbolicRuntimeIndex

namespace DemandFrontier
variable {s : DemandFrontier} {t : Closure.Frontier Nat}

theorem grown_length (bits : List (BitVec 64)) (base : Nat) : base / 64 < (grown bits base).length := by
  unfold grown
  split
  · rw [List.length_append, List.length_replicate]
    omega
  · omega

theorem bitAt_grown (bits : List (BitVec 64)) (base i : Nat) : bitAt (grown bits base) i = bitAt bits i := by
  unfold grown
  split
  · unfold bitAt wordAt
    simp only [List.getD_eq_getElem?_getD, List.getElem?_append, List.getElem?_replicate]
    by_cases inside : i / 64 < bits.length
    · rw [if_pos inside]
    · rw [if_neg inside, List.getElem?_eq_none (Nat.le_of_not_lt inside)]
      split <;> simp
  · rfl

structure Shows (s : DemandFrontier) (t : Closure.Frontier Nat) : Prop where
  bits : ∀ base, bitAt s.bits base = true ↔ base ∈ t.reached
  frontier : s.frontier = t.pending.reverse

theorem shows_admitBase (shows' : Shows s t) (base : Nat) :
    Shows (s.admitBase base) (t.visit base) := by
  have tested : (wordAt (grown s.bits base) (base / 64) &&& nodeMask base != 0#64) = decide (base ∈ t.reached) := by
    have bit : bitAt (grown s.bits base) base = decide (base ∈ t.reached) := by
      rw [bitAt_grown, Bool.eq_iff_iff, shows'.bits, decide_eq_true_iff]
    exact (WordBits.and_mask_ne_zero (Nat.mod_lt base (by decide))).trans bit
  unfold admitBase Closure.Frontier.visit
  dsimp only
  rw [tested]
  by_cases seen : base ∈ t.reached
  · rw [if_pos (decide_eq_true seen), if_pos seen]
    exact ⟨fun other => by rw [bitAt_grown, shows'.bits],shows'.frontier⟩
  · rw [if_neg (by simpa using seen), if_neg seen]
    refine ⟨fun other => ?_,by rw [List.reverse_cons, shows'.frontier]⟩
    rw [bitAt_set _ (grown_length s.bits base), List.mem_cons, ← shows'.bits, ← bitAt_grown s.bits base other]
    by_cases word : other / 64 = base / 64
    · rw [if_pos word, BitVec.getLsbD_or, getLsbD_nodeMask base _ (Nat.mod_lt other (by decide)), ← word]
      have same : other % 64 = base % 64 ↔ other = base := ⟨eq_of_word_and_offset word,fun same => same ▸ rfl⟩
      rw [Bool.or_eq_true, decide_eq_true_iff, same]
      exact or_comm
    · rw [if_neg word]
      exact ⟨.inr,fun found => found.resolve_left fun same => word (same ▸ rfl)⟩

theorem shows_admitAll {candidates : List Nat} (shows' : Shows s t) :
    Shows (s.admitAll candidates) (t.visitAll candidates) := by
  induction candidates generalizing s t with
  | nil => exact shows'
  | cons base rest ih => exact ih (shows_admitBase shows' base)

theorem shows_expand {runtime : SymbolicRuntimeIndex} (fuel : Nat)
    (shows' : Shows s t) (base : Nat) : bitAt (runtime.expandDemand fuel s) base = true ↔
      base ∈ Closure.levels runtime.demandSources fuel t := by
  induction fuel generalizing s t with
  | zero => exact shows'.bits base
  | succ fuel ih =>
    have idle : s.frontier.isEmpty = t.pending.isEmpty := by rw [shows'.frontier, List.isEmpty_reverse]
    rw [SymbolicRuntimeIndex.expandDemand, Closure.levels, idle]
    split
    · exact shows'.bits base
    · rw [shows'.frontier]
      exact ih (shows_admitAll ⟨shows'.bits,rfl⟩)

end DemandFrontier

namespace SymbolicRuntimeIndex
variable {runtime : SymbolicRuntimeIndex}
variable {base : Nat}

def demandBases (runtime : SymbolicRuntimeIndex) : List Nat :=
  runtime.demandSeeds ++ (runtime.baseRebases.rows.map (·.2.target) ++ runtime.reverseTransforms.rows.map (·.source))

theorem demandSources_bases {source : Nat} (edge : source ∈ runtime.demandSources base) : source ∈ runtime.demandBases := by
  simp only [demandSources, incoming, List.mem_append, List.mem_map, List.mem_filter, GroupedRows.mem_get] at edge
  simp only [demandBases, List.mem_append, List.mem_map]
  rcases edge with ⟨rebase,row,rfl⟩ | ⟨row,⟨member,_⟩,rfl⟩
  · exact .inr (.inl ⟨(base,rebase),row,rfl⟩)
  · exact .inr (.inr ⟨row,member,rfl⟩)

theorem demandBases_card : runtime.demandBases.toFinset.card ≤ runtime.demandCapacity := by
  refine (List.toFinset_card_le _).trans ?_
  simp only [demandBases, demandCapacity, List.length_append, List.length_map]
  omega

theorem mem_fieldDemand : base ∈ runtime.fieldDemand ↔
    ∃ seed ∈ runtime.demandSeeds, Closure.Reachable runtime.demandSources seed base :=
  Closure.mem_closure (fun _ _ _ edge => List.mem_toFinset.mpr (demandSources_bases edge))
    (fun _ member => List.mem_toFinset.mpr (List.mem_append_left _ member)) demandBases_card

theorem fieldDemand_seed (seed : base ∈ runtime.demandSeeds) : base ∈ runtime.fieldDemand :=
  mem_fieldDemand.mpr ⟨base,seed,.refl⟩

theorem fieldDemand_source {source : Nat} (demanded : base ∈ runtime.fieldDemand)
    (edge : source ∈ runtime.demandSources base) : source ∈ runtime.fieldDemand := by
  obtain ⟨seed,member,path⟩ := mem_fieldDemand.mp demanded
  exact mem_fieldDemand.mpr ⟨seed,member,path.tail edge⟩

theorem compile_contains {field : Nat} :
    runtime.compileSymbolicFieldDemand.contains base field = true ↔ base ∈ runtime.fieldDemand := by
  rw [compileSymbolicFieldDemand, SymbolicFieldDemand.contains_eq,
    DemandFrontier.shows_expand (t := Closure.Frontier.visitAll ⟨[],[]⟩ runtime.demandSeeds) _
      (DemandFrontier.shows_admitAll ⟨fun base => by simp [bitAt,wordAt],rfl⟩),
    Closure.mem_levels (fun _ _ _ edge => List.mem_toFinset.mpr (demandSources_bases edge))
      (fun _ member => List.mem_toFinset.mpr (List.mem_append_left _ member)) (Nat.lt_succ_of_le demandBases_card),
    mem_fieldDemand]

theorem decoded_demand (runtime : SymbolicRuntimeIndex) : ∃ demand, SymbolicFieldDemand.decode runtime.compileSymbolicFieldDemand.encode = .ok demand ∧
    ∀ base field, demand.contains base field = runtime.compileSymbolicFieldDemand.contains base field := by
  refine ⟨_,SymbolicFieldDemand.decode_encode _,fun base field => ?_⟩
  rw [compileSymbolicFieldDemand]
  rfl

end SymbolicRuntimeIndex

end BonsaiNinja.Idg
