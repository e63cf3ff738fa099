import Kryos.Lib.BreadthFirst
import Kryos.Lib.KeyedTable
import Kryos.Mir.Calls

/-!
# Removal of unreachable blocks

`remove_unreachable_blocks` of `kryos-mir/src/optimize/dce.rs`: a search from block 0, and, unless
every block was met, a function of the blocks that were met under new ids. Block ids are not
positions, so the search goes through a table from ids to positions; the new ids are positions in
the new function.

## Main results

* `mem_reachableIds_iff` — the search meets what can be reached
* `findBlock_rename` — a block under its new id
* `unreachable_blocks_removed_agrees` — what is kept, and whole runs
-/

namespace Kryos

open Relation

/-! ## The pass -/

/-- The position of each block, by its id. Of several blocks with one id, the last counts. -/
def idToIndex (blocks : List BasicBlock) : BlockId → Option ℕ :=
  KeyedTable.record (fun _ => none) (blocks.zipIdx.map fun p => (p.1.id, some p.2))

/-- The successors of the block with this id. -/
def successorIds (f : MirFunction) (id : BlockId) : List BlockId :=
  match idToIndex f.blocks id with
  | some i => (f.blocks[i]?.map fun b => b.terminator.targets).getD []
  | none => []

/-- No node of the search but the first is without an edge that leads to it. -/
def searchFuel (f : MirFunction) : ℕ := (f.blocks.map fun b => b.terminator.targets.length).sum + 1

/-- The ids that the search from block 0 meets. -/
def reachableIds (f : MirFunction) : List BlockId :=
  (BreadthFirst.search (successorIds f) (searchFuel f) ([0], [0])).getD []

/-- The id as it is, where the table has none. -/
def remapId (map : BlockId → Option BlockId) (id : BlockId) : BlockId := (map id).getD id

def remapTerminator (map : BlockId → Option BlockId) : Terminator → Terminator
  | .ret op => .ret op
  | .unreachable => .unreachable
  | .goto t => .goto (remapId map t)
  | .branch cond t e => .branch cond (remapId map t) (remapId map e)
  | .switch v targets default =>
    .switch v (targets.map fun p => (p.1, remapId map p.2)) (remapId map default)

def remapBlock (map : BlockId → Option BlockId) (b : BasicBlock) : BasicBlock :=
  ⟨remapId map b.id, b.instructions, remapTerminator map b.terminator⟩

/-- The blocks that were met. -/
def keptBlocks (f : MirFunction) : List BasicBlock :=
  f.blocks.filter fun b => b.id ∈ reachableIds f

def removeUnreachableBlocks (f : MirFunction) : MirFunction :=
  if f.blocks.isEmpty then f
  else if (reachableIds f).length = f.blocks.length then f
  else { f with blocks := (keptBlocks f).map (remapBlock (idToIndex (keptBlocks f))) }

theorem targets_remapTerminator (map : BlockId → Option BlockId) (term : Terminator) :
    (remapTerminator map term).targets = term.targets.map (remapId map) := by
  cases term <;> simp [remapTerminator, Terminator.targets, Function.comp_def]

theorem remapBlock_some (b : BasicBlock) : remapBlock some b = b := by
  obtain ⟨id, insts, term⟩ := b
  cases term <;> simp [remapBlock, remapTerminator, remapId]

/-! ## Tables from ids to positions -/

variable {b : BasicBlock}

section Tables

variable {blocks : List BasicBlock} (hnodup : (blocks.map BasicBlock.id).Nodup)

include hnodup

theorem idToIndex_of_getElem? {i : ℕ} (h : blocks[i]? = some b) :
    idToIndex blocks b.id = some i := by
  have hkeys : (blocks.zipIdx.map fun p => (p.1.id, some p.2)).map Prod.fst =
      blocks.map BasicBlock.id := by
    rw [List.map_map, ← List.zipIdx_map_fst 0 blocks, List.map_map, List.zipIdx_map_fst]
    rfl
  have hmem : (b.id, some i) ∈ blocks.zipIdx.map fun p => (p.1.id, some p.2) :=
    List.mem_map.mpr ⟨(b, i), List.mem_zipIdx_iff_getElem?.mpr h, rfl⟩
  exact KeyedTable.record_of_nodup (hkeys ▸ hnodup) _ hmem rfl

/-- The id of a block is replaced by its position. -/
theorem exists_remapId (hb : b ∈ blocks) :
    ∃ i, blocks[i]? = some b ∧ remapId (idToIndex blocks) b.id = i := by
  obtain ⟨i, hi⟩ := List.getElem?_of_mem hb
  exact ⟨i, hi, by rw [remapId, idToIndex_of_getElem? hnodup hi, Option.getD_some]⟩

theorem remapId_inj {c : BasicBlock} (hb : b ∈ blocks) (hc : c ∈ blocks)
    (h : remapId (idToIndex blocks) b.id = remapId (idToIndex blocks) c.id) : b = c := by
  obtain ⟨i, hi, hib⟩ := exists_remapId hnodup hb
  obtain ⟨j, hj, hjc⟩ := exists_remapId hnodup hc
  rw [hib, hjc] at h
  rw [h, hj] at hi
  exact (Option.some.inj hi).symm

end Tables

variable {id : BlockId}

theorem idToIndex_of_not_mem {blocks : List BasicBlock} (h : id ∉ blocks.map BasicBlock.id) :
    idToIndex blocks id = none := by
  refine KeyedTable.record_of_not_mem (fun hmem => h ?_) _
  obtain ⟨_, hkey, rfl⟩ := List.mem_map.mp hmem
  obtain ⟨p, hp, rfl⟩ := List.mem_map.mp hkey
  exact List.mem_map_of_mem (List.fst_mem_of_mem_zipIdx hp)

theorem find?_of_unique {α : Type} {p : α → Bool} {l : List α} {b : α} (hb : b ∈ l)
    (hp : p b = true) (hunique : ∀ c ∈ l, p c = true → c = b) : l.find? p = some b := by
  cases h : l.find? p with
  | none => exact absurd hp (List.find?_eq_none.mp h b hb)
  | some c => rw [hunique c (List.mem_of_find?_eq_some h) (List.find?_some h)]

/-! ## The search -/

/-- The ids are distinct, the entry block comes first, and no target is missing. -/
structure MirFunction.Connected (f : MirFunction) : Prop where
  nodup : (f.blocks.map BasicBlock.id).Nodup
  entry : ∃ b bs, f.blocks = b :: bs ∧ b.id = 0
  targets : ∀ b ∈ f.blocks, ∀ t ∈ b.terminator.targets, t ∈ f.blocks.map BasicBlock.id

/-- One block leads to another. -/
def MirFunction.Edge (f : MirFunction) (a b : BlockId) : Prop :=
  ∃ block, f.findBlock a = some block ∧ b ∈ block.terminator.targets

def MirFunction.Reachable (f : MirFunction) (id : BlockId) : Prop := ReflTransGen f.Edge 0 id

section Search

variable {f : MirFunction} (hf : f.Connected)

include hf

theorem MirFunction.Connected.findBlock (hb : b ∈ f.blocks) : f.findBlock b.id = some b :=
  find?_of_unique hb (beq_self_eq_true _) fun _ hc hid =>
    List.inj_on_of_nodup_map hf.nodup hc hb (eq_of_beq hid)

theorem mem_successorIds_iff {a b : BlockId} : b ∈ successorIds f a ↔ f.Edge a b := by
  rw [successorIds, MirFunction.Edge]
  by_cases ha : a ∈ f.blocks.map BasicBlock.id
  · obtain ⟨block, hblock, rfl⟩ := List.mem_map.mp ha
    obtain ⟨i, hi⟩ := List.getElem?_of_mem hblock
    simp [idToIndex_of_getElem? hf.nodup hi, hi, hf.findBlock hblock]
  · rw [idToIndex_of_not_mem ha]
    refine iff_of_false List.not_mem_nil ?_
    rintro ⟨block, hblock, -⟩
    exact ha (List.mem_map.mpr ⟨block, List.mem_of_find?_eq_some hblock,
      eq_of_beq (List.find?_some (p := fun b : BasicBlock => b.id == a) hblock)⟩)

theorem exists_search :
    ∃ out, BreadthFirst.search (successorIds f) (searchFuel f) ([0], [0]) = some out := by
  -- every id that can be met is the entry or a target of some block
  let ids := f.blocks.flatMap fun b => b.terminator.targets
  have hlength : ids.length + 1 = searchFuel f := by
    rw [searchFuel, List.length_flatMap]
  have hnext : ∀ a ∈ insert 0 ids.toFinset, ∀ b ∈ successorIds f a, b ∈ insert 0 ids.toFinset := by
    intro a _ b hb
    obtain ⟨block, hblock, hb⟩ := (mem_successorIds_iff hf).mp hb
    exact Finset.mem_insert_of_mem (List.mem_toFinset.mpr
      (List.mem_flatMap.mpr ⟨block, List.mem_of_find?_eq_some hblock, hb⟩))
  have hsub : (insert 0 ids.toFinset).filter (· ∉ [0]) ⊆ ids.toFinset := by
    intro a ha
    simp only [Finset.mem_filter, Finset.mem_insert, List.mem_singleton] at ha
    exact ha.1.resolve_left ha.2
  have hcard := (Finset.card_le_card hsub).trans (List.toFinset_card_le ids)
  refine BreadthFirst.search_isSome hnext (by simp) ?_
  rw [List.length_singleton]
  omega

theorem mem_reachableIds_iff : id ∈ reachableIds f ↔ f.Reachable id := by
  obtain ⟨out, hout⟩ := exists_search hf
  rw [reachableIds, hout, Option.getD_some, BreadthFirst.mem_search_iff hout]
  have hedge : (fun a b => b ∈ successorIds f a) = f.Edge :=
    funext fun _ => funext fun _ => propext (mem_successorIds_iff hf)
  rw [hedge]
  rfl

theorem nodup_reachableIds : (reachableIds f).Nodup := by
  obtain ⟨out, hout⟩ := exists_search hf
  rw [reachableIds, hout, Option.getD_some]
  exact (BreadthFirst.search_spec hout (List.nodup_singleton 0)).1

theorem mem_ids_of_reachable (h : f.Reachable id) : id ∈ f.blocks.map BasicBlock.id := by
  cases h with
  | refl =>
    obtain ⟨b, bs, hb, hid⟩ := hf.entry
    rw [hb, ← hid]
    exact List.mem_cons_self
  | tail _ hedge =>
    obtain ⟨block, hblock, ht⟩ := hedge
    exact hf.targets block (List.mem_of_find?_eq_some hblock) _ ht

theorem mem_keptBlocks : b ∈ keptBlocks f ↔ b ∈ f.blocks ∧ f.Reachable b.id := by
  rw [keptBlocks, List.mem_filter, decide_eq_true_eq, mem_reachableIds_iff hf]

/-- The early exit: with as many ids met as there are blocks, every block was met. -/
theorem keptBlocks_of_length_eq (h : (reachableIds f).length = f.blocks.length) :
    keptBlocks f = f.blocks := by
  have hsub : reachableIds f ⊆ f.blocks.map BasicBlock.id := fun id hid =>
    mem_ids_of_reachable hf ((mem_reachableIds_iff hf).mp hid)
  have hperm : (reachableIds f).Perm (f.blocks.map BasicBlock.id) :=
    ((nodup_reachableIds hf).subperm hsub).perm_of_length_le (by rw [List.length_map, h])
  exact List.filter_eq_self.mpr fun b hb =>
    decide_eq_true (hperm.mem_iff.mpr (List.mem_map_of_mem hb))

/-! ## The new function -/

/-- What the pass leaves: the blocks that can be reached, under new ids. -/
theorem exists_renaming : ∃ ρ : BlockId → BlockId,
    (removeUnreachableBlocks f).blocks =
        (keptBlocks f).map (remapBlock fun id => some (ρ id)) ∧
      ρ 0 = 0 ∧ ∀ b ∈ keptBlocks f, ∀ c ∈ keptBlocks f, ρ b.id = ρ c.id → b = c := by
  have hnodup : ((keptBlocks f).map BasicBlock.id).Nodup :=
    hf.nodup.sublist (List.filter_sublist.map _)
  obtain ⟨b₀, bs, hblocks, hentry⟩ := hf.entry
  have hne : ¬ f.blocks.isEmpty = true := by rw [hblocks]; exact Bool.false_ne_true
  rw [removeUnreachableBlocks, if_neg hne]
  split_ifs with hall
  · refine ⟨id, ?_, rfl, fun b hb c hc h => List.inj_on_of_nodup_map hnodup hb hc h⟩
    rw [keptBlocks_of_length_eq hf hall]
    exact ((List.map_congr_left fun b _ => remapBlock_some b).trans (List.map_id _)).symm
  · refine ⟨remapId (idToIndex (keptBlocks f)), rfl, ?_, fun b hb c hc => remapId_inj hnodup hb hc⟩
    have hfirst : (keptBlocks f)[0]? = some b₀ := by
      have h₀ : b₀.id ∈ reachableIds f := (mem_reachableIds_iff hf).mpr (hentry ▸ .refl)
      simp [keptBlocks, hblocks, h₀]
    rw [← hentry, remapId, idToIndex_of_getElem? hnodup hfirst, Option.getD_some, hentry]

end Search

/-- A run under new ids. -/
def FnOutcome.rename {V W : Type} (ρ : BlockId → BlockId) : FnOutcome V W → FnOutcome V W
  | .running id s => .running (ρ id) s
  | out => out

section Runs

variable {f : MirFunction} (hf : f.Connected) {ρ : BlockId → BlockId}
  (hblocks : (removeUnreachableBlocks f).blocks =
    (keptBlocks f).map (remapBlock fun id => some (ρ id)))
  (hinj : ∀ b ∈ keptBlocks f, ∀ c ∈ keptBlocks f, ρ b.id = ρ c.id → b = c)

include hf hblocks hinj

/-- A block under its new id. -/
theorem findBlock_rename (hid : f.Reachable id) :
    ∃ b, f.findBlock id = some b ∧
      (removeUnreachableBlocks f).findBlock (ρ id) =
        some (remapBlock (fun id => some (ρ id)) b) := by
  obtain ⟨b, hb, rfl⟩ := List.mem_map.mp (mem_ids_of_reachable hf hid)
  have hkept : b ∈ keptBlocks f := (mem_keptBlocks hf).mpr ⟨hb, hid⟩
  refine ⟨b, hf.findBlock hb, ?_⟩
  rw [MirFunction.findBlock, hblocks]
  refine find?_of_unique (List.mem_map_of_mem hkept) (beq_self_eq_true _) fun c hc hcid => ?_
  obtain ⟨d, hd, rfl⟩ := List.mem_map.mp hc
  rw [hinj d hd b hkept (eq_of_beq hcid)]

variable {V W A : Type} (I : Interp V W A) (L : Places A)

omit hf hblocks hinj in
theorem nextBlock_remapTerminator (s : MState V W) (term : Terminator) :
    nextBlock I L s (remapTerminator (fun id => some (ρ id)) term) =
      (nextBlock I L s term).map ρ := by
  rcases term with _ | _ | ⟨cond, t, e⟩ | ⟨v, targets, default⟩ | _
  case branch =>
    simp only [remapTerminator, nextBlock, Option.map_some]
    split <;> rfl
  case switch =>
    simp only [remapTerminator, nextBlock, Option.map_some, List.find?_map, Option.map_map]
    simp only [Function.comp_def]
    cases targets.find? fun ct => ct.1 == I.asInt (readOperand I L s v) <;> rfl
  all_goals rfl

/-- **One block, and from it whole runs**: the blocks are entered in the same order. -/
theorem runFn_rename (k : ℕ) (hid : f.Reachable id) (s : MState V W) :
    runFn I L (removeUnreachableBlocks f) k (ρ id) s = (runFn I L f k id s).rename ρ := by
  induction k generalizing id s with
  | zero => rfl
  | succ k ih =>
    obtain ⟨b, hb, hb'⟩ := findBlock_rename hf hblocks hinj hid
    rw [runFn, runFn, hb, hb']
    simp only [remapBlock]
    cases execInsts I L b.instructions s with
    | error e => rfl
    | ok s' =>
      simp only [nextBlock_remapTerminator]
      cases hnext : nextBlock I L s' b.terminator with
      | none =>
        simp only [Option.map_none]
        cases b.terminator <;> rfl
      | some t => exact ih (hid.tail ⟨b, hb, nextBlock_mem_targets hnext⟩) s'

end Runs

/-- **Removing unreachable blocks.** Under new ids the function has just the blocks that can be
reached, with targets that lead to the same blocks, and every run enters the same blocks. -/
theorem unreachable_blocks_removed_agrees {f : MirFunction} (hf : f.Connected) :
    ∃ ρ : BlockId → BlockId,
      (∀ b ∈ f.blocks, b ∈ keptBlocks f ↔ f.Reachable b.id) ∧
      (removeUnreachableBlocks f).blocks =
        (keptBlocks f).map (remapBlock fun id => some (ρ id)) ∧
      (∀ a b, f.Reachable a → f.Reachable b → ρ a = ρ b → a = b) ∧ ρ 0 = 0 ∧
      (∀ b ∈ keptBlocks f,
        (remapBlock (fun id => some (ρ id)) b).terminator.targets = b.terminator.targets.map ρ ∧
        ∀ t ∈ b.terminator.targets, ∃ b', f.findBlock t = some b' ∧
          (removeUnreachableBlocks f).findBlock (ρ t) =
            some (remapBlock (fun id => some (ρ id)) b')) ∧
      ∀ (V W A : Type) (I : Interp V W A) (L : Places A) (k : ℕ) (s : MState V W),
        runFn I L (removeUnreachableBlocks f) k 0 s = (runFn I L f k 0 s).rename ρ := by
  obtain ⟨ρ, hblocks, hzero, hinj⟩ := exists_renaming hf
  refine ⟨ρ, fun b hb => (mem_keptBlocks hf).trans (and_iff_right hb), hblocks, ?_, hzero, ?_, ?_⟩
  · intro a b ha hb h
    obtain ⟨c, hc, rfl⟩ := List.mem_map.mp (mem_ids_of_reachable hf ha)
    obtain ⟨d, hd, rfl⟩ := List.mem_map.mp (mem_ids_of_reachable hf hb)
    rw [hinj c ((mem_keptBlocks hf).mpr ⟨hc, ha⟩) d ((mem_keptBlocks hf).mpr ⟨hd, hb⟩) h]
  · refine fun b hb => ⟨targets_remapTerminator _ _, fun t ht => ?_⟩
    obtain ⟨hb, hreach⟩ := (mem_keptBlocks hf).mp hb
    exact findBlock_rename hf hblocks hinj (hreach.tail ⟨b, hf.findBlock hb, ht⟩)
  · intro V W A I L k s
    have hrun := runFn_rename hf hblocks hinj I L k .refl s
    rwa [hzero] at hrun

/-- A function with gaps in its ids and a block, 3, that nothing leads to. -/
def gappedFn : MirFunction :=
  { name := "f", params := [], retTy := .void, locals := [], attributes := {}
    blocks := [⟨0, [], .branch (.constant (.bool true)) 2 5⟩, ⟨2, [], .ret none⟩,
      ⟨3, [], .goto 2⟩, ⟨5, [], .goto 0⟩] }

theorem unreachable_blocks_removed_agrees_gappedFn :
    (removeUnreachableBlocks gappedFn).blocks.map BasicBlock.id = [0, 1, 2] ∧
    ∃ ρ : BlockId → BlockId, ∀ (V W A : Type) (I : Interp V W A) (L : Places A) (k : ℕ)
      (s : MState V W),
        runFn I L (removeUnreachableBlocks gappedFn) k 0 s = (runFn I L gappedFn k 0 s).rename ρ := by
  have hf : gappedFn.Connected := ⟨by decide, ⟨_, _, rfl, rfl⟩, by decide⟩
  obtain ⟨ρ, -, -, -, -, -, hrun⟩ := unreachable_blocks_removed_agrees hf
  exact ⟨by decide, ρ, hrun⟩

end Kryos
