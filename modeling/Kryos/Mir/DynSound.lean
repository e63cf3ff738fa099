import Mathlib
import Kryos.Mir.DynEdits

/-!
# Trait objects are counted soundly

The pass `own_dyn_refs_in` on a function as lowering leaves it: along every path, no box is released
or used while its count is zero. The treatments of the single locals cover every block, so the counts
stay backed from block to block.

## Main results

* `Lowered.covers` — the edits of a block provide every reference its instructions take
* `dyn_refs_are_sound` — the pass
-/

namespace Kryos.DynOwn

variable {borrows userFn : String → Bool} {f : MirFunction} {l : LocalId} {bi ii : ℕ}
  {b : BasicBlock} {inst : Instruction}

/-! ## The edits of a block -/

/-- A parameter whose box the caller keeps. -/
def LentTo (f : MirFunction) (l : LocalId) : Prop :=
  ¬ spawnWrapper f ∧ isParam f l

instance : DecidablePred (LentTo f) :=
  fun _ => inferInstanceAs (Decidable (_ ∧ _))

/-- Every local is covered, whatever its treatment. -/
theorem Lowered.localCovers (hf : Lowered borrows userFn f) (hl : isDyn f l) :
    ∃ req, LocalCovers borrows userFn f (LentTo f l) l req ∧ (isParam f l → ∀ bi ii, req bi ii) := by
  by_cases hparam : isParam f l
  · exact ⟨_, localCovers_param hf hl hparam, fun _ _ _ => trivial⟩
  · have hlent : ¬ LentTo f l := fun h => hparam h.2
    have hcover : ∃ req, LocalCovers borrows userFn f (LentTo f l) l req := by
      by_cases hnamed : isNamed f l
      · exact localCovers_named hf hl hparam hnamed hlent
      · by_cases huses : usesOf borrows f l = []
        · exact ⟨_, localCovers_unused hf hl hparam hnamed huses⟩
        · by_cases hsingle : singleBlock (usesOf borrows f l) (defsOf borrows userFn f l)
          · exact localCovers_single hf hl hparam hnamed hlent huses hsingle
          · by_cases hcross : crossMoved f (defsOf borrows userFn f l) (usesOf borrows f l)
            · exact localCovers_moved hf hl hparam hnamed hlent hsingle hcross
            · exact ⟨_, localCovers_leaky hf hl hparam hnamed huses hsingle hcross⟩
    obtain ⟨req, hreq⟩ := hcover
    exact ⟨req, hreq, fun h => absurd h hparam⟩

theorem count_retainsAt (bi : ℕ) (at_ : At) (l : LocalId) :
    (retainsAt borrows userFn f bi at_).count l =
      if isDyn f l then (localEdits borrows userFn f l).retain.count (bi, at_) else 0 := by
  unfold retainsAt
  rw [count_flatMap_replicate (fun l => (localEdits borrows userFn f l).retain.count (bi, at_))
    nodup_dynIds]
  simp only [mem_dynIds]

theorem count_releasesAfter (bi ii : ℕ) (l : LocalId) :
    (releasesAfter borrows userFn f bi ii).count l =
      if isDyn f l then (localEdits borrows userFn f l).releaseAfter.count (bi, ii) else 0 := by
  unfold releasesAfter
  rw [count_flatMap_replicate (fun l => (localEdits borrows userFn f l).releaseAfter.count (bi, ii))
    nodup_dynIds]
  simp only [mem_dynIds]

theorem retainAfter_localEdits : (localEdits borrows userFn f l).retainAfter =
    ((defsOf borrows userFn f l).filter fun d => d.2.2 = .alias).map fun d => (d.1, d.2.1) := by
  unfold localEdits
  dsimp only
  split_ifs
  · rfl
  · rfl
  · split <;> rfl
  · rfl
  · rfl

/-- Aliases, and nothing else, are retained after their definition. -/
theorem retainsAfter_eq (hb : f.blocks[bi]? = some b) (hi : b.instructions[ii]? = some inst) :
    retainsAfter borrows userFn f bi ii = match instDef (isDyn f) borrows userFn inst with
      | some (d, .alias) => [d]
      | _ => [] := by
  have hcount : ∀ l, (retainsAfter borrows userFn f bi ii).count l =
      (instDef (isDyn f) borrows userFn inst).elim 0
        fun d => if d.1 = l ∧ d.2 = .alias then 1 else 0 := by
    intro l
    have hdefs : (localEdits borrows userFn f l).retainAfter.count (bi, ii) =
        (defsOf borrows userFn f l).countP
          fun d => d.1 = bi && d.2.1 = ii && decide (d.2.2 = .alias) := by
      rw [retainAfter_localEdits, List.count_eq_countP, List.countP_map, List.countP_filter]
      refine List.countP_congr fun d _ => ?_
      simp [Prod.ext_iff]
    rw [retainsAfter, count_flatMap_replicate
      (fun l => (localEdits borrows userFn f l).retainAfter.count (bi, ii)) nodup_dynIds, hdefs,
      countP_defsOf hb hi fun k => k = .alias]
    rcases hdef : instDef (isDyn f) borrows userFn inst with _ | ⟨d, k⟩
    · simp
    · have hd : isDyn f d := isDyn_of_instDef hdef
      simp only [mem_dynIds, decide_eq_true_eq]
      split_ifs with hl hdk
      · exact (if_pos hdk).symm
      · exact (if_neg hdk).symm
      · exact (if_neg fun h : d = l ∧ k = .alias => hl (h.1 ▸ hd)).symm
  rcases hdef : instDef (isDyn f) borrows userFn inst with _ | ⟨d, k⟩
  · refine List.eq_nil_iff_forall_not_mem.mpr fun l hl => ?_
    rw [← List.count_pos_iff, hcount, hdef] at hl
    simp at hl
  · by_cases hk : k = .alias
    · subst hk
      refine List.perm_singleton.mp (List.perm_iff_count.mpr fun l => ?_)
      rw [hcount, hdef]
      simp [List.count_singleton]
    · have hnil : retainsAfter borrows userFn f bi ii = [] := by
        refine List.eq_nil_iff_forall_not_mem.mpr fun l hl => ?_
        rw [← List.count_pos_iff, hcount, hdef] at hl
        simp [hk] at hl
      rw [hnil]
      rcases k with _ | _ | _
      · rfl
      · rfl
      · exact absurd rfl hk

/-- An exception check neither uses nor defines a `dyn` local. -/
theorem Lowered.check (hf : Lowered borrows userFn f) (hb : f.blocks[bi]? = some b)
    (hi : b.instructions[ii]? = some inst) (hcheck : isExceptionCheck inst) :
    instUses (isDyn f) borrows inst = [] ∧ instDef (isDyn f) borrows userFn inst = none ∧
      ¬ isDropOf l inst := by
  have hmem := List.mem_of_getElem? hi
  rcases inst with ⟨dest, rv⟩ | _ | _ | _ | _ | _ | _ | _ | _ | _ | _ | _ | _ | _ | _ | _
  case assign =>
    rcases rv with _ | _ | _ | ⟨func, args⟩ | _ | _ | _ | _ | _ | _ | _ | _ | _ | _ | _ | _ | _ | _ |
      _ | _ | _ | _ | _ | _ | _ | _ | _ | _ | _
    case call =>
      obtain rfl : func = "kryos_exception_check" := of_decide_eq_true hcheck
      obtain ⟨rfl, hdest⟩ := hf.checks b (List.mem_of_getElem? hb) dest args hmem
      exact ⟨by simp [instUses, rvalueUses], by simp [instDef, hdest], by simp [isDropOf]⟩
    all_goals simp [isExceptionCheck] at hcheck
  all_goals simp [isExceptionCheck] at hcheck

/-- **The edits of a block** provide every reference its instructions take. -/
theorem Lowered.covers (hf : Lowered borrows userFn f) {req : LocalId → ℕ → ℕ → Prop}
    (hreq : ∀ l, isDyn f l → LocalCovers borrows userFn f (LentTo f l) l (req l))
    (hv : Visited f bi) (hb : f.blocks[bi]? = some b) :
    Covers (isDyn f) borrows userFn (LentTo f) (fun l ii => isDyn f l ∧ req l bi ii) b.instructions
      (retainsAt borrows userFn f bi) (retainsAfter borrows userFn f bi)
      (releasesAfter borrows userFn f bi) := by
  have hdyn : ∀ {l at_}, l ∈ retainsAt borrows userFn f bi at_ →
      isDyn f l ∧ 0 < (localEdits borrows userFn f l).retain.count (bi, at_) := by
    intro l at_ h
    rw [← List.count_pos_iff, count_retainsAt] at h
    split_ifs at h with hl
    · exact ⟨hl, h⟩
    · omega
  have hdyn' : ∀ {l ii}, l ∈ releasesAfter borrows userFn f bi ii →
      isDyn f l ∧ 0 < (localEdits borrows userFn f l).releaseAfter.count (bi, ii) := by
    intro l ii h
    rw [← List.count_pos_iff, count_releasesAfter] at h
    split_ifs at h with hl
    · exact ⟨hl, h⟩
    · omega
  constructor
  case touched =>
    rintro ii inst l hi (⟨k, hk⟩ | hc | hr)
    · have hl := (of_mem_instUses hk).1
      exact ⟨hl, (hreq l hl).touched ⟨hv, hb, hi⟩ (.inl ⟨k, hk⟩)⟩
    · have hl := isDyn_of_mem_consumed hc
      exact ⟨hl, (hreq l hl).touched ⟨hv, hb, hi⟩ (.inr (.inl hc))⟩
    · obtain ⟨hl, hpos⟩ := hdyn hr
      exact ⟨hl, (hreq l hl).touched ⟨hv, hb, hi⟩ (.inr (.inr hpos))⟩
  case enough =>
    intro ii inst l hi
    by_cases hl : isDyn f l
    · rw [count_retainsAt, if_pos hl]
      exact (hreq l hl).enough ⟨hv, hb, hi⟩
    · rw [List.count_eq_zero_of_not_mem fun h => hl (isDyn_of_mem_consumed h)]
      exact Nat.zero_le _
  case kept =>
    rintro ii inst l hi hnot ⟨hl, hnext⟩
    rw [count_retainsAt, if_pos hl]
    obtain ⟨h, hle⟩ := (hreq l hl).kept ⟨hv, hb, hi⟩ hnot hnext
    exact ⟨⟨hl, h⟩, hle⟩
  case released =>
    intro ii inst l hi hnot hmem
    obtain ⟨hl, hpos⟩ := hdyn' hmem
    rw [count_retainsAt, count_releasesAfter, if_pos hl, if_pos hl]
    obtain ⟨h, hlent, hafter, hle⟩ := (hreq l hl).released ⟨hv, hb, hi⟩ hnot hpos
    exact ⟨⟨hl, h⟩, hlent, fun h => hafter h.2, hle⟩
  case defined =>
    rintro ii inst l hi hd
    have hl : isDyn f l := hd.elim fun k hk => isDyn_of_instDef hk
    rw [count_releasesAfter, if_pos hl]
    obtain ⟨hle, hnot⟩ := (hreq l hl).defined ⟨hv, hb, hi⟩ hd
    exact ⟨hle, fun hmem h => hnot (hdyn' hmem).2 h.2⟩
  case aliased => exact fun hi => retainsAfter_eq hb hi
  case check =>
    intro ii inst hi hcheck
    obtain ⟨huses, hdef, -⟩ := hf.check (l := 0) hb hi hcheck
    have hnone : ∀ l, isDyn f l → ¬ 0 < (localEdits borrows userFn f l).retain.count (bi, .inst ii) +
        (localEdits borrows userFn f l).releaseAfter.count (bi, ii) := by
      intro l hl hpos
      rcases (hreq l hl).placed ⟨hv, hb, hi⟩ hpos with ⟨k, hk⟩ | hd | ⟨k, hk⟩
      · simp [huses] at hk
      · exact (hf.check hb hi hcheck).2.2 hd
      · simp [hdef] at hk
    refine ⟨huses, hdef, by rw [retainsAfter_eq hb hi, hdef], ?_, ?_⟩
    · refine List.eq_nil_iff_forall_not_mem.mpr fun l hl => ?_
      obtain ⟨hd, hpos⟩ := hdyn' hl
      exact hnone l hd (by omega)
    · refine List.eq_nil_iff_forall_not_mem.mpr fun l hl => ?_
      obtain ⟨hd, hpos⟩ := hdyn hl
      exact hnone l hd (by omega)
  case term =>
    intro l hmem
    obtain ⟨hl, hpos⟩ := hdyn hmem
    exact ⟨hl, (hreq l hl).term hv hb hpos⟩
  case dyn =>
    rintro l (⟨at_, h⟩ | ⟨ii, h⟩)
    · exact (hdyn h).1
    · exact (hdyn' h).1

/-! ## The blocks of the result -/

theorem le_materialize (retain : At → List LocalId) (after release : ℕ → List LocalId) (n : ℕ) :
    ∀ {rest : List Instruction} (next ii : ℕ), rest.length ≤ n →
      next ≤ (materialize retain after release next ii rest).2 := by
  induction n with
  | zero =>
    intro rest next ii h
    obtain rfl : rest = [] := List.length_eq_zero_iff.mp (by omega)
    exact Nat.le_add_right _ _
  | succ n ih =>
    intro rest next ii h
    rcases rest with _ | ⟨inst, rest⟩
    · exact Nat.le_add_right _ _
    · rw [List.length_cons] at h
      rw [materialize.eq_def]
      dsimp only
      split_ifs
      · exact le_trans (Nat.le_add_right _ _) (ih _ _ (by omega))
      · rcases rest with _ | ⟨check, rest⟩
        · exact le_trans (by omega) (ih _ _ (Nat.zero_le n))
        · rw [List.length_cons] at h
          dsimp only
          split_ifs
          · exact le_trans (by omega) (ih _ _ (by omega))
          · exact le_trans (by omega) (ih _ _ (by rw [List.length_cons]; omega))

/-- The shape of a function: the ids and terminators of its blocks. -/
def shape (b : BasicBlock) : BlockId × Terminator :=
  (b.id, b.terminator)

theorem map_shape_materializeBlocks : ∀ (bs : List BasicBlock) (next bi : ℕ),
    (materializeBlocks borrows userFn f next bi bs).1.map shape = bs.map shape := by
  intro bs
  induction bs with
  | nil => intro next bi; rfl
  | cons b bs ih =>
    intro next bi
    rw [materializeBlocks, List.map_cons, List.map_cons, ih]
    rfl

theorem shape_releaseParams (ps : List LocalId) : shape (releaseParams ps b) = shape b := by
  rw [releaseParams]
  split <;> rfl

/-- Where control goes depends on the shape only. -/
theorem succs_congr {g : MirFunction} (h : g.blocks.map shape = f.blocks.map shape) :
    succs g = succs f := by
  have hindex : ∀ (h : MirFunction) (id : BlockId), blockIndex h id =
      (((h.blocks.map shape).zipIdx.filter fun p => p.1.1 = id).getLast?).map Prod.snd := by
    intro h id
    rw [blockIndex, List.zipIdx_map, List.filter_map, List.getLast?_map, Option.map_map]
    rfl
  have hsuccs : ∀ h : MirFunction, succs h = (h.blocks.map shape).map fun p =>
      (BasicBlock.successors ⟨p.1, [], p.2⟩).filterMap fun id =>
        (((h.blocks.map shape).zipIdx.filter fun p => p.1.1 = id).getLast?).map Prod.snd := by
    intro h
    rw [succs, List.map_map, show blockIndex h = _ from funext (hindex h)]
    rfl
  rw [hsuccs, hsuccs, h]

/-- A block of the result. -/
theorem getElem?_materializeBlocks (borrows userFn : String → Bool) (f : MirFunction) :
    ∀ {bs : List BasicBlock} (next bi : ℕ) {j : ℕ} {b : BasicBlock}, bs[j]? = some b → ∃ next' ≥ next, (materializeBlocks borrows userFn f next bi bs).1[j]? =
      some { b with instructions := (materialize (retainsAt borrows userFn f (bi + j))
        (retainsAfter borrows userFn f (bi + j)) (releasesAfter borrows userFn f (bi + j)) next' 0
        b.instructions).1 } := by
  intro bs
  induction bs with
  | nil => intro next bi j b h; simp at h
  | cons b₀ bs ih =>
    intro next bi j b h
    rcases j with _ | j
    · obtain rfl : b₀ = b := by simpa using h
      exact ⟨next, le_rfl, rfl⟩
    · obtain ⟨next', hle, heq⟩ := ih (materialize (retainsAt borrows userFn f bi)
        (retainsAfter borrows userFn f bi) (releasesAfter borrows userFn f bi) next 0
        b₀.instructions).2 (bi + 1) (show bs[j]? = some b by simpa using h)
      refine ⟨next', le_trans (le_materialize _ _ _ _ _ _ le_rfl) hle, ?_⟩
      rw [show bi + (j + 1) = bi + 1 + j by omega]
      exact heq

theorem isDyn_of_freshLocal {i : LocalId} (h : freshLocal f ≤ i) : isDyn f i = false := by
  rw [isDyn, List.any_eq_false]
  intro d hd
  have hle : d.id ≤ (f.locals.map MirLocal.id).foldr max 0 :=
    List.le_max_of_le' 0 (List.mem_map_of_mem hd) le_rfl
  have hne : d.id ≠ i := by
    rintro rfl
    exact absurd (lt_of_lt_of_le (Nat.lt_succ_of_le hle) h) (lt_irrefl _)
  simp [hne]

section Result

variable (borrows userFn f)

theorem isDyn_ownDynRefsIn (l : LocalId) : isDyn (ownDynRefsIn borrows userFn f) l = isDyn f l := by
  rw [ownDynRefsIn]
  split_ifs
  · rfl
  · rw [isDyn, List.any_append, isDyn]
    simp

theorem succs_ownDynRefsIn : succs (ownDynRefsIn borrows userFn f) = succs f := by
  rw [ownDynRefsIn]
  split_ifs
  · rfl
  · refine succs_congr ?_
    dsimp only
    rw [List.map_map, ← map_shape_materializeBlocks f.blocks (freshLocal f) 0]
    exact List.map_congr_left fun b _ => shape_releaseParams _

end Result

/-- The instructions of a block of the result. -/
theorem getElem?_ownDynRefsIn (hdyn : dynIds f ≠ []) (hb : f.blocks[bi]? = some b) :
    ∃ next ≥ freshLocal f, (ownDynRefsIn borrows userFn f).blocks[bi]? =
      some (releaseParams (spawnOwnedParams f) { b with
        instructions := (materialize (retainsAt borrows userFn f bi)
          (retainsAfter borrows userFn f bi) (releasesAfter borrows userFn f bi) next 0
          b.instructions).1 }) := by
  obtain ⟨next, hle, heq⟩ := getElem?_materializeBlocks borrows userFn f (freshLocal f) 0 hb
  refine ⟨next, hle, ?_⟩
  rw [ownDynRefsIn, if_neg hdyn, List.getElem?_map, heq, Nat.zero_add]
  rfl

/-! ## Runs -/

/-- What a function finds when it is entered: no box in any local but the parameters; a spawn wrapper
was given a reference for each parameter, any other function is lent boxes that the caller keeps. -/
structure EntryMem (f : MirFunction) (m : Mem) : Prop where
  temps : ∀ l, ¬ isParam f l → m.val l = none
  lent : ¬ spawnWrapper f → ∀ l b, isDyn f l → m.val l = some b → 0 < m.count b
  owned : spawnWrapper f → ∀ b,
    ((dynIds f).filter fun l => isParam f l ∧ m.val l = some b).length ≤ m.count b

/-- The references the caller keeps. -/
def callerRefs (f : MirFunction) (m : Mem) (b : Box) : ℕ :=
  if ¬ spawnWrapper f ∧ ∃ l ∈ dynIds f, m.val l = some b then 1 else 0

theorem EntryMem.pos {m : Mem} (hm : EntryMem f m) (req : LocalId → ℕ → Prop) (ii : ℕ) :
    Pos (dynIds f).toFinset (callerRefs f m) (LentTo f) req ii m := by
  refine ⟨fun l => if spawnWrapper f ∧ isParam f l then 1 else 0, fun b => ?_, fun l hl _ b hb => ?_⟩
  · by_cases hs : spawnWrapper f
    · have hheld : held (dynIds f).toFinset (fun l => if spawnWrapper f ∧ isParam f l then 1 else 0)
          m.val b = ((dynIds f).filter fun l => isParam f l ∧ m.val l = some b).length := by
        rw [← List.toFinset_card_of_nodup (nodup_dynIds.filter _), List.toFinset_filter, held,
          Finset.card_filter]
        refine Finset.sum_congr rfl fun l _ => ?_
        by_cases hp : isParam f l <;> by_cases hv : m.val l = some b <;> simp [hs, hp, hv]
      rw [hheld, callerRefs, if_neg (by simp [hs]), Nat.zero_add]
      exact hm.owned hs b
    · have hheld : held (dynIds f).toFinset (fun l => if spawnWrapper f ∧ isParam f l then 1 else 0)
          m.val b = 0 := by
        refine Finset.sum_eq_zero fun l _ => ?_
        simp [hs]
      rw [hheld, Nat.add_zero, callerRefs]
      split_ifs with h
      · obtain ⟨-, l, hl, hv⟩ := h
        exact hm.lent hs l b (mem_dynIds.mp hl) hv
      · exact Nat.zero_le _
  · have hparam : isParam f l := by
      by_contra hp
      rw [hm.temps l hp] at hb
      simp at hb
    by_cases hs : spawnWrapper f
    · exact .inl (by simp [hs, hparam])
    · refine .inr ⟨⟨hs, hparam⟩, ?_⟩
      rw [callerRefs, if_pos ⟨hs, l, List.mem_toFinset.mp hl, hb⟩]

section Runs

variable (hf : Lowered borrows userFn f) {req : LocalId → ℕ → ℕ → Prop}
  (hreq : ∀ l, isDyn f l → LocalCovers borrows userFn f (LentTo f l) l (req l) ∧
    (isParam f l → ∀ bi ii, req l bi ii))
  {base : Box → ℕ}

/-- The end of a block: every successor can be entered and what is returned is live. -/
def Leaves (f : MirFunction) (base : Box → ℕ) (req : LocalId → ℕ → ℕ → Prop) (bi : ℕ)
    (b : BasicBlock) (m : Mem) : Prop :=
  (∀ bj ∈ (succs f).getD bi [],
    Pos (dynIds f).toFinset base (LentTo f) (fun l ii => isDyn f l ∧ req l bj ii) 0 m) ∧
  ∀ l, Returns f l b.terminator → m.live l

/-- A returned parameter was retained for the return. -/
theorem count_retainsAt_term (hl : isDyn f l) (hparam : isParam f l) (hb : f.blocks[bi]? = some b)
    (hret : Returns f l b.terminator) : 0 < (retainsAt borrows userFn f bi .term).count l := by
  have hmem : (bi, At.term, Use.ret) ∈ usesOf borrows f l := (mem_usesOf_term hb).mpr hret
  rw [count_retainsAt, if_pos hl, List.count_pos_iff]
  have hretain : (localEdits borrows userFn f l).retain =
      (usesOf borrows f l).flatMap (holderRetain f l) := by
    simp [localEdits, hparam]
  rw [hretain]
  exact List.mem_flatMap.mpr ⟨_, hmem, by simp [holderRetain, hparam, retainAt, Use.owning]⟩

include hf hreq in
/-- The releases of a spawn wrapper before it returns. -/
theorem safe_releaseParams (hv : Visited f bi) (hb : f.blocks[bi]? = some b)
    (hD : ∀ l, l ∈ (dynIds f).toFinset ↔ isDyn f l) {op : Option Operand}
    (hop : b.terminator = .ret op) {m : Mem}
    (hend : Ended (dynIds f).toFinset base (LentTo f) (fun l ii => isDyn f l ∧ req l bi ii)
      (retainsAt borrows userFn f bi .term) b.instructions.length m) :
    Safe (isDyn f) borrows userFn (Leaves f base req bi b)
      ((spawnOwnedParams f).map Instruction.drop) m := by
  obtain ⟨tok, hback, huse⟩ := hend
  have hmem : ∀ {l}, l ∈ spawnOwnedParams f → spawnWrapper f ∧ isDyn f l ∧ isParam f l := by
    intro l hl
    rw [spawnOwnedParams] at hl
    split_ifs at hl with hs
    · obtain ⟨hp, hd⟩ := List.mem_filter.mp hl
      exact ⟨hs, hd, by simpa [isParam] using hp⟩
    · simp at hl
  have hnodup : (spawnOwnedParams f).Nodup := by
    rw [spawnOwnedParams]
    split_ifs
    · exact hf.params.filter _
    · exact List.nodup_nil
  have hown : ∀ {l b}, l ∈ spawnOwnedParams f → m.val l = some b → 1 ≤ tok l := by
    intro l b hl hvl
    obtain ⟨hs, hd, hp⟩ := hmem hl
    rcases huse l ((hD l).mpr hd) ⟨hd, (hreq l hd).2 hp _ _⟩ b hvl with h | ⟨hlent, -⟩
    · exact h
    · exact absurd hs hlent.1
  refine (safe_drops hD _ hback (fun l hl => (hmem hl).2.1) fun l b hvl => ?_).mono ?_
  · by_cases hl : l ∈ spawnOwnedParams f
    · have := List.nodup_iff_count_le_one.mp hnodup l
      have := hown hl hvl
      omega
    · rw [List.count_eq_zero_of_not_mem hl]
      exact Nat.zero_le _
  · rintro m' ⟨hval, hback'⟩
    refine ⟨fun bj hj => ?_, fun l hret => ?_⟩
    · have hnil : (succs f).getD bi [] = [] := by
        simp [succs, List.getD, hb, BasicBlock.successors, hop]
      rw [hnil] at hj
      simp at hj
    · have hl : isDyn f l := hret.of_ret.1
      rw [Mem.live]
      split
      · rfl
      · next b' hb' =>
        refine decide_eq_true ?_
        rw [hval] at hb'
        rcases huse l ((hD l).mpr hl) ⟨hl, (hreq l hl).1.ret hv hb hret⟩ b' hb' with htok | ⟨-, hbase⟩
        · refine hback'.count_pos ((hD l).mpr hl) (hval ▸ hb') ?_
          by_cases hp : l ∈ spawnOwnedParams f
          · have hone := List.nodup_iff_count_le_one.mp hnodup l
            have hkept : 0 < (retainsAt borrows userFn f bi .term).count l :=
              count_retainsAt_term hl (hmem hp).2.2 hb hret
            omega
          · rw [List.count_eq_zero_of_not_mem hp]
            omega
        · have := hback' b'
          omega

include hf hreq in
/-- **A block of the result** runs through. -/
theorem safe_block (hdyn : dynIds f ≠ []) (hv : Visited f bi) (hb : f.blocks[bi]? = some b)
    {b' : BasicBlock} (hb' : (ownDynRefsIn borrows userFn f).blocks[bi]? = some b') {m : Mem}
    (hpos : Pos (dynIds f).toFinset base (LentTo f) (fun l ii => isDyn f l ∧ req l bi ii) 0 m) :
    Safe (isDyn f) borrows userFn (Leaves f base req bi b) b'.instructions m := by
  obtain ⟨next, hle, heq⟩ := getElem?_ownDynRefsIn hdyn hb
  obtain rfl := Option.some.inj (hb'.symm.trans heq)
  have hD : ∀ l, l ∈ (dynIds f).toFinset ↔ isDyn f l := fun l => by
    rw [List.mem_toFinset, mem_dynIds]
  have hcov := hf.covers (fun l hl => (hreq l hl).1) hv hb
  have hsafe := hcov.safe_materialize hD b.instructions.length le_rfl List.drop_zero (Nat.zero_le _)
    (fun i hi => isDyn_of_freshLocal (hle.trans hi)) hpos
  by_cases hterm : ∃ op, b.terminator = .ret op
  · obtain ⟨op, hop⟩ := hterm
    have hinst : (releaseParams (spawnOwnedParams f) { b with
        instructions := (materialize (retainsAt borrows userFn f bi)
          (retainsAfter borrows userFn f bi) (releasesAfter borrows userFn f bi) next 0
          b.instructions).1 }).instructions = (materialize (retainsAt borrows userFn f bi)
          (retainsAfter borrows userFn f bi) (releasesAfter borrows userFn f bi) next 0
          b.instructions).1 ++ (spawnOwnedParams f).map Instruction.drop := by
      rw [releaseParams, hop]
    rw [hinst, safe_append]
    refine hsafe.mono fun m₁ hend => safe_releaseParams hf hreq hv hb hD hop hend
  · have hinst : (releaseParams (spawnOwnedParams f) { b with
        instructions := (materialize (retainsAt borrows userFn f bi)
          (retainsAfter borrows userFn f bi) (releasesAfter borrows userFn f bi) next 0
          b.instructions).1 }).instructions = (materialize (retainsAt borrows userFn f bi)
          (retainsAfter borrows userFn f bi) (releasesAfter borrows userFn f bi) next 0
          b.instructions).1 := by
      rw [releaseParams]
      split
      · next op h => exact absurd ⟨op, h⟩ hterm
      · rfl
    rw [hinst]
    refine hsafe.mono fun m₁ hend => ⟨fun bj hj => ?_, fun l hl => ?_⟩
    · obtain ⟨tok, hback, huse⟩ := hend
      refine ⟨_, hback, fun l hl hnext b hv' => ?_⟩
      have hdone := (hreq l hnext.1).1.edge hv hb hj hnext.2
      exact (huse l hl ⟨hnext.1, hdone⟩ b hv').imp_left fun h => Nat.le_add_right_of_le h
    · exact absurd hl.of_ret.2 hterm

include hf hreq in
/-- Every state of a run is in a block that runs through. -/
theorem safe_of_reaches (hdyn : dynIds f ≠ []) {m₀ : Mem} (hm : EntryMem f m₀)
    {rest : List Instruction} {m : Mem}
    (h : Reaches borrows userFn (ownDynRefsIn borrows userFn f) m₀ bi rest m) :
    Visited f bi ∧ ∃ b, f.blocks[bi]? = some b ∧
      Safe (isDyn f) borrows userFn (Leaves f (callerRefs f m₀) req bi b) rest m := by
  have hblock : ∀ {bi : ℕ} {b' : BasicBlock}, (ownDynRefsIn borrows userFn f).blocks[bi]? = some b' →
      ∃ b, f.blocks[bi]? = some b := by
    intro bi b' hb'
    refine Option.ne_none_iff_exists'.mp fun hnone => ?_
    have hshape : (ownDynRefsIn borrows userFn f).blocks.length = f.blocks.length := by
      have := congrArg List.length (succs_ownDynRefsIn borrows userFn f)
      simpa [succs] using this
    rw [List.getElem?_eq_none_iff, ← hshape, ← List.getElem?_eq_none_iff, hb'] at hnone
    simp at hnone
  induction h with
  | entry hb' =>
    obtain ⟨b, hb⟩ := hblock hb'
    exact ⟨.entry, b, hb, safe_block hf hreq hdyn .entry hb hb' (hm.pos _ _)⟩
  | @step bi inst rest m m' c _ hexec ih =>
    obtain ⟨hv, b, hb, hsafe⟩ := ih
    obtain ⟨m'', hexec', hrest⟩ := hsafe c
    have hdynEq : isDyn (ownDynRefsIn borrows userFn f) = isDyn f :=
      funext (isDyn_ownDynRefsIn borrows userFn f)
    rw [hdynEq, hexec'] at hexec
    exact ⟨hv, b, hb, Option.some.inj hexec ▸ hrest⟩
  | @jump bi bj m b' _ hj hb' ih =>
    obtain ⟨hv, b, hb, hleave⟩ := ih
    rw [succs_ownDynRefsIn] at hj
    obtain ⟨b₁, hb₁⟩ := hblock hb'
    exact ⟨.edge hv hj, b₁, hb₁,
      safe_block hf hreq hdyn (.edge hv hj) hb₁ hb' (hleave.1 bj hj)⟩

end Runs

/-- **Trait objects are counted soundly.** In a function as lowering leaves it, after the pass, no
run along any path comes to an instruction that releases or uses a box whose count is zero, and none
returns such a box. -/
theorem dyn_refs_are_sound (borrows userFn : String → Bool) (f : MirFunction)
    (hf : Lowered borrows userFn f) (m₀ : Mem) (hm : EntryMem f m₀) (bi : ℕ)
    (rest : List Instruction) (m : Mem)
    (h : Reaches borrows userFn (ownDynRefsIn borrows userFn f) m₀ bi rest m) :
    match rest with
    | inst :: _ => ∀ c, ∃ m', exec (isDyn f) borrows userFn c m inst = some m'
    | [] => ∀ b l, f.blocks[bi]? = some b → Returns f l b.terminator → m.live l := by
  by_cases hdyn : dynIds f = []
  · have hnone : ∀ l, isDyn f l = false := by
      intro l
      refine Bool.eq_false_iff.mpr fun hl => ?_
      rw [← mem_dynIds, hdyn] at hl
      exact List.not_mem_nil hl
    rcases rest with _ | ⟨inst, rest⟩
    · intro b l _ hret
      have := hret.of_ret.1
      simp [hnone] at this
    · intro c
      have huses : instUses (isDyn f) borrows inst = [] := by
        refine List.eq_nil_iff_forall_not_mem.mpr fun u hu => ?_
        have := (of_mem_instUses hu).1
        simp [hnone] at this
      have hconsumed : consumed (isDyn f) borrows inst = [] := by
        refine List.eq_nil_iff_forall_not_mem.mpr fun l hl => ?_
        have := isDyn_of_mem_consumed hl
        simp [hnone] at this
      exact ⟨_, by rw [exec, huses, hconsumed]; rfl⟩
  · choose! req hreq using fun l => hf.localCovers (l := l)
    obtain ⟨-, b, hb, hsafe⟩ := safe_of_reaches hf hreq hdyn hm h
    rcases rest with _ | ⟨inst, rest⟩
    · intro b' l hb' hret
      obtain rfl : b = b' := Option.some.inj (hb.symm.trans hb')
      exact hsafe.2 l hret
    · exact fun c => (hsafe c).imp fun m' hm' => hm'.1

/-- A loop that makes, calls and drops a trait object `t` in every turn, and returns the one it was
lent. -/
def loopFn : MirFunction where
  name := "spin"
  params := [⟨0, .dynTrait "Shape"⟩]
  retTy := .dynTrait "Shape"
  blocks :=
    [⟨0, [.assign 1 (.makeTraitObject (.constant (.int 1)) "Square" "Shape" true),
        .assign 2 (.vtableCall (.local 1) 0 [] .i64), .drop 1], .goto 1⟩,
      ⟨1, [], .branch (.local 2) 0 2⟩, ⟨2, [], .ret (some (.local 0))⟩]
  locals := [⟨0, some "s", .dynTrait "Shape", false⟩, ⟨1, some "t", .dynTrait "Shape", false⟩,
    ⟨2, none, .i64, false⟩]
  attributes := {}

/-- The parameter holds box 7, counted once by the caller. -/
def loopMem : Mem where
  val l := if l = 0 then some 7 else none
  count b := if b = 7 then 1 else 0
  lent := none

theorem lowered_loopFn : Lowered (fun _ => false) (fun _ => false) loopFn where
  drops b hb l hl _ := by
    simp only [loopFn, List.mem_cons, List.not_mem_nil, or_false] at hb
    rcases hb with rfl | rfl | rfl
    · obtain rfl : l = 1 := by simpa using hl
      decide
    · simp at hl
    · simp at hl
  once l hl hnamed hparam bi s b _ hb := by
    obtain rfl : l = 1 := by
      have hl' : 0 = l ∨ 1 = l := by simpa [loopFn, isDyn] using hl
      rcases hl' with rfl | rfl
      · exact absurd (by decide) hparam
      · rfl
    rcases bi with _ | _ | _ | bi
    · obtain rfl : _ = b := Option.some.inj hb
      rcases s <;> decide
    · obtain rfl : _ = b := Option.some.inj hb
      rcases s <;> decide
    · obtain rfl : _ = b := Option.some.inj hb
      rcases s <;> decide
    · simp [loopFn] at hb
  checks b hb dest args h := by
    simp only [loopFn, List.mem_cons, List.not_mem_nil, or_false] at hb
    rcases hb with rfl | rfl | rfl <;> simp at h
  params := by decide

theorem entryMem_loopMem : EntryMem loopFn loopMem where
  temps l hl := by
    refine if_neg ?_
    rintro rfl
    exact hl (by decide)
  lent _ l b _ hb := by
    simp only [loopMem] at hb ⊢
    split_ifs at hb
    simp [← Option.some.inj hb]
  owned h := absurd h (by decide)

theorem dyn_refs_are_sound_loop :
    ∃ m, Reaches (fun _ => false) (fun _ => false)
      (ownDynRefsIn (fun _ => false) (fun _ => false) loopFn) loopMem 2 [] m ∧ m.live 0 := by
  have h₀ : Reaches (fun _ => false) (fun _ => false)
      (ownDynRefsIn (fun _ => false) (fun _ => false) loopFn) loopMem 0 _ loopMem := .entry rfl
  have h₁ := ((h₀.step (c := some 3) rfl).step (c := none) rfl).step (c := none) rfl
  have h₂ : Reaches _ _ _ loopMem 1 _ _ := h₁.jump (by decide) rfl
  have h₃ : Reaches _ _ _ loopMem 2 _ _ := h₂.jump (by decide) rfl
  have h₄ := h₃.step (c := none) rfl
  exact ⟨_, h₄, dyn_refs_are_sound _ _ loopFn lowered_loopFn loopMem entryMem_loopMem 2 [] _ h₄ _ 0
    rfl (by decide)⟩

end Kryos.DynOwn
