import Kryos.Mir.DynCount

/-!
# The edits of one local

The five treatments that `own_dyn_refs_in` has for a local, on a function as lowering leaves it. Each
is a way to say before which instructions the local must have a reference: `LocalCovers` is what has
to be checked of such a requirement.

## Main definitions

* `Lowered` — what lowering promises about `Drop`s
* `LocalCovers` — the retains and releases of a local provide what its uses take

## Main results

* `localCovers_param`, `localCovers_named`, `localCovers_unused`, `localCovers_single`,
  `localCovers_moved`, `localCovers_leaky` — every treatment covers the local
-/

namespace Kryos.DynOwn

/-! ## Lists by position -/

section Lists

variable {α β : Type*}

/-- The entries with a property that only those of one position have. -/
theorem filter_flatMap_zipIdx (F : α × ℕ → List β) (p : β → Bool) {i : ℕ} {x : α} :
    ∀ {L : List α} {k : ℕ}, L[i]? = some x → (∀ y j, j ≠ k + i → ∀ z ∈ F (y, j), p z = false) →
      ((L.zipIdx k).flatMap F).filter p = (F (x, k + i)).filter p := by
  intro L
  induction L generalizing i with
  | nil => intro k h; simp at h
  | cons y L ih =>
    intro k h hother
    rw [List.zipIdx_cons, List.flatMap_cons, List.filter_append]
    rcases i with _ | i
    · obtain rfl : y = x := by simpa using h
      have hrest : ((L.zipIdx (k + 1)).flatMap F).filter p = [] := by
        rw [List.filter_eq_nil_iff]
        intro z hz
        obtain ⟨⟨w, j⟩, hw, hz⟩ := List.mem_flatMap.mp hz
        have hj : k + 1 ≤ j := (List.mem_zipIdx hw).1
        simp [hother w j (by omega) z hz]
      simp [hrest]
    · have hhead : (F (y, k)).filter p = [] := by
        rw [List.filter_eq_nil_iff]
        intro z hz
        simp [hother y k (by omega) z hz]
      rw [hhead, List.nil_append, ih (k := k + 1) (by simpa using h) fun w j hj => ?_]
      · rw [show k + 1 + i = k + (i + 1) by omega]
      · exact hother w j (by omega)

theorem countP_flatMap_zipIdx {F : α × ℕ → List β} {p : β → Bool} {i : ℕ} {x : α} {L : List α}
    (h : L[i]? = some x) (hother : ∀ y j, j ≠ i → ∀ z ∈ F (y, j), p z = false) :
    (L.zipIdx.flatMap F).countP p = (F (x, i)).countP p := by
  rw [List.countP_eq_length_filter, List.countP_eq_length_filter,
    filter_flatMap_zipIdx F p h (by simpa using hother), Nat.zero_add]

/-- How often a local is listed when the local ids are replicated. -/
theorem count_flatMap_replicate (g : ℕ → ℕ) {l : ℕ} : ∀ {ids : List ℕ}, ids.Nodup →
    (ids.flatMap fun i => List.replicate (g i) i).count l = if l ∈ ids then g l else 0 := by
  intro ids
  induction ids with
  | nil => intro _; rfl
  | cons i ids ih =>
    intro hnodup
    obtain ⟨hi, hids⟩ := List.nodup_cons.mp hnodup
    rw [List.flatMap_cons, List.count_append, List.count_replicate, ih hids]
    rcases eq_or_ne i l with rfl | hne
    · simp [hi]
    · simp [hne, hne.symm]

end Lists

/-! ## Uses and definitions by position -/

section Positions

variable {borrows userFn : String → Bool} {f : MirFunction} {l : LocalId} {bi ii : ℕ}
  {b : BasicBlock} {inst : Instruction}

theorem mem_dynIds : l ∈ dynIds f ↔ isDyn f l := by
  unfold dynIds isDyn
  rw [List.mem_insertionSort, List.mem_dedup, List.mem_map, List.any_eq_true]
  constructor
  · rintro ⟨d, hd, rfl⟩
    obtain ⟨hmem, hty⟩ := List.mem_filter.mp hd
    exact ⟨d, hmem, by simpa using hty⟩
  · rintro ⟨d, hmem, hd⟩
    simp only [Bool.and_eq_true, decide_eq_true_eq] at hd
    exact ⟨d, List.mem_filter.mpr ⟨hmem, hd.2⟩, hd.1⟩

theorem nodup_dynIds : (dynIds f).Nodup :=
  ((List.perm_insertionSort _ _).nodup_iff).mpr (List.nodup_dedup _)

theorem mem_usesOf {at_ : At} {k : Use} : (bi, at_, k) ∈ usesOf borrows f l ↔
    ∃ b, f.blocks[bi]? = some b ∧ (at_, l, k) ∈ blockUses borrows f b := by
  unfold usesOf
  rw [List.mem_flatMap]
  constructor
  · rintro ⟨⟨b, j⟩, hb, hu⟩
    obtain ⟨⟨at', l', k'⟩, hv, heq⟩ := List.mem_map.mp hu
    obtain ⟨hmem, hl⟩ := List.mem_filter.mp hv
    obtain rfl : l' = l := of_decide_eq_true hl
    simp only [Prod.mk.injEq] at heq
    obtain ⟨rfl, rfl, rfl⟩ := heq
    exact ⟨b, List.mem_zipIdx_iff_getElem?.mp hb, hmem⟩
  · rintro ⟨b, hb, hv⟩
    refine ⟨(b, bi), List.mem_zipIdx_iff_getElem?.mpr hb, List.mem_map.mpr ⟨(at_, l, k), ?_, rfl⟩⟩
    exact List.mem_filter.mpr ⟨hv, by simp⟩

theorem mem_blockUses_inst {k : Use} : (At.inst ii, l, k) ∈ blockUses borrows f b ↔
    ∃ inst, b.instructions[ii]? = some inst ∧ (l, k) ∈ instUses (isDyn f) borrows inst := by
  unfold blockUses
  rw [List.mem_append, List.mem_flatMap]
  constructor
  · rintro (⟨⟨inst, j⟩, hi, hu⟩ | hu)
    · obtain ⟨u, hu, heq⟩ := List.mem_map.mp hu
      simp only [Prod.mk.injEq, At.inst.injEq] at heq
      obtain ⟨rfl, rfl⟩ := heq
      exact ⟨inst, List.mem_zipIdx_iff_getElem?.mp hi, hu⟩
    · simp at hu
  · rintro ⟨inst, hi, hu⟩
    exact .inl ⟨(inst, ii), List.mem_zipIdx_iff_getElem?.mpr hi, List.mem_map.mpr ⟨(l, k), hu, rfl⟩⟩

theorem mem_blockUses_term {k : Use} : (At.term, l, k) ∈ blockUses borrows f b ↔
    (l, k) ∈ termUses (isDyn f) b.terminator := by
  unfold blockUses
  simp

/-- How often an instruction uses a local in some way. -/
theorem countP_usesOf_inst (hb : f.blocks[bi]? = some b) (hi : b.instructions[ii]? = some inst)
    (p : Use → Bool) :
    (usesOf borrows f l).countP (fun u => u.1 = bi && u.2.1 = .inst ii && p u.2.2) =
      (instUses (isDyn f) borrows inst).countP fun u => u.1 = l && p u.2 := by
  unfold usesOf
  rw [countP_flatMap_zipIdx hb, List.countP_map, List.countP_filter]
  · unfold blockUses
    rw [List.countP_append, countP_flatMap_zipIdx hi, List.countP_map, List.countP_map]
    · have hterm : ∀ q : LocalId × Use → Bool, (∀ u, q u = false) →
          (termUses (isDyn f) b.terminator).countP q = 0 := by
        intro q hq
        exact List.countP_eq_zero.mpr fun u _ => by simp [hq u]
      rw [hterm _ fun u => by simp, Nat.add_zero]
      refine List.countP_congr fun u _ => ?_
      simp [and_comm]
    · intro i j hj u hu
      obtain ⟨v, -, rfl⟩ := List.mem_map.mp hu
      simp [hj]
  · intro y j hj u hu
    obtain ⟨v, -, rfl⟩ := List.mem_map.mp hu
    simp [hj]

theorem mem_defsOf {k : DefKind} : (bi, ii, k) ∈ defsOf borrows userFn f l ↔
    ∃ b inst, f.blocks[bi]? = some b ∧ b.instructions[ii]? = some inst ∧
      instDef (isDyn f) borrows userFn inst = some (l, k) := by
  unfold defsOf
  simp only [List.mem_flatMap, Prod.exists]
  constructor
  · rintro ⟨b, j, hb, inst, i, hi, hu⟩
    split at hu
    · next d k' hd =>
      split_ifs at hu with hl
      · simp only [List.mem_singleton, Prod.mk.injEq] at hu
        obtain ⟨rfl, rfl, rfl⟩ := hu
        exact ⟨b, inst, List.mem_zipIdx_iff_getElem?.mp hb, List.mem_zipIdx_iff_getElem?.mp hi,
          by rw [hd, hl]⟩
      · simp at hu
    · simp at hu
  · rintro ⟨b, inst, hb, hi, hd⟩
    exact ⟨b, bi, List.mem_zipIdx_iff_getElem?.mpr hb, inst, ii,
      List.mem_zipIdx_iff_getElem?.mpr hi, by simp [hd]⟩

/-- An instruction defines a local at most once. -/
theorem countP_defsOf (hb : f.blocks[bi]? = some b) (hi : b.instructions[ii]? = some inst)
    (p : DefKind → Bool) :
    (defsOf borrows userFn f l).countP (fun d => d.1 = bi && d.2.1 = ii && p d.2.2) =
      match instDef (isDyn f) borrows userFn inst with
      | some (d, k) => if d = l ∧ p k then 1 else 0
      | none => 0 := by
  have hat : ∀ (y : Instruction) (i j : ℕ), ∀ z ∈ (match instDef (isDyn f) borrows userFn y with
      | some (d, k) => if d = l then [(j, i, k)] else []
      | none => [] : List (ℕ × ℕ × DefKind)), z.1 = j ∧ z.2.1 = i := by
    intro y i j z hz
    split at hz
    · split_ifs at hz
      · rw [List.mem_singleton.mp hz]
        exact ⟨rfl, rfl⟩
      · simp at hz
    · simp at hz
  unfold defsOf
  rw [countP_flatMap_zipIdx hb, countP_flatMap_zipIdx hi]
  · dsimp only
    rcases instDef (isDyn f) borrows userFn inst with _ | ⟨d, k⟩
    · rfl
    · rcases eq_or_ne d l with rfl | hne
      · simp
      · simp [hne]
  · intro y i hne z hz
    have := hat y i bi z hz
    simp [this.2, hne]
  · intro y j hne z hz
    obtain ⟨⟨y', i⟩, -, hz⟩ := List.mem_flatMap.mp hz
    have := hat y' i j z hz
    simp [this.1, hne]

end Positions

/-! ## What lowering leaves -/

section Lowered

variable (borrows userFn : String → Bool) (f : MirFunction)

/-- The terminator returns the local. -/
def Returns (l : LocalId) (t : Terminator) : Prop :=
  (l, Use.ret) ∈ termUses (isDyn f) t

instance (l : LocalId) (t : Terminator) : Decidable (Returns f l t) :=
  inferInstanceAs (Decidable (_ ∈ _))

variable {f} in
/-- Only a `Return` returns, and only `dyn` locals count. -/
theorem Returns.of_ret {l : LocalId} {t : Terminator} (h : Returns f l t) :
    isDyn f l ∧ ∃ op, t = .ret op := by
  rw [Returns, termUses.eq_def] at h
  split at h
  · next op => exact ⟨(of_mem_operandUse h).1, some op, rfl⟩
  · simp at h

/-- Whether a local is dropped and not defined again, after an instruction; `none` when it is used
or dropped once more. -/
def scanInst (l : LocalId) (dropped : Bool) (inst : Instruction) : Option Bool :=
  if isDropOf l inst then if dropped then none else some true
  else if dropped ∧ ∃ u ∈ instUses (isDyn f) borrows inst, u.1 = l then none
  else if (instDef (isDyn f) borrows userFn inst).map Prod.fst = some l then some false
  else some dropped

/-- The same over a block. A dropped local may be returned by the block that drops it, once. -/
def scanBlock (l : LocalId) (b : BasicBlock) (dropped : Bool) : Option Bool :=
  (b.instructions.foldlM (scanInst borrows userFn f l) dropped).bind fun t =>
    if t ∧ Returns f l b.terminator ∧ b.instructions.countP (isDropOf l) ≠ 1 then none else some t

/-- The paths into a block, with whether the local is dropped on them. -/
inductive Enters (l : LocalId) : ℕ → Bool → Prop
  | entry : Enters l 0 false
  | edge {bi bj : ℕ} {s t : Bool} {b : BasicBlock} : Enters l bi s → f.blocks[bi]? = some b →
      scanBlock borrows userFn f l b s = some t → bj ∈ (succs f).getD bi [] → Enters l bj t

/-- A function as lowering leaves it. Only named locals that are no parameters are dropped, and
along every path a dropped local is neither used nor dropped again before it is defined again,
except by the return of the block that drops it. `kryos_exception_check` takes no argument, and
each parameter has a local of its own. -/
structure Lowered : Prop where
  drops : ∀ b ∈ f.blocks, ∀ l, .drop l ∈ b.instructions → isDyn f l → isNamed f l ∧ ¬ isParam f l
  once : ∀ l, isDyn f l → isNamed f l → ¬ isParam f l → ∀ bi s b,
    Enters borrows userFn f l bi s → f.blocks[bi]? = some b → scanBlock borrows userFn f l b s ≠ none
  checks : ∀ b ∈ f.blocks, ∀ dest args,
    .assign dest (.call "kryos_exception_check" args) ∈ b.instructions → args = [] ∧ ¬ isDyn f dest
  params : f.paramLocals.Nodup

/-- The blocks that a path enters. -/
inductive Visited : ℕ → Prop
  | entry : Visited 0
  | edge {bi bj : ℕ} : Visited bi → bj ∈ (succs f).getD bi [] → Visited bj

/-- An instruction of a block that a path enters. -/
structure Site (bi ii : ℕ) (b : BasicBlock) (inst : Instruction) : Prop where
  visited : Visited f bi
  block : f.blocks[bi]? = some b
  inst : b.instructions[ii]? = some inst

end Lowered

/-! ## One local -/

section Local

variable {borrows userFn : String → Bool} {f : MirFunction} {l : LocalId} {bi ii : ℕ}
  {b : BasicBlock} {inst : Instruction}

/-- The edits of one local provide the references its uses take. -/
structure LocalCovers (borrows userFn : String → Bool) (f : MirFunction) (lent : Prop)
    [Decidable lent] (l : LocalId) (req : ℕ → ℕ → Prop) : Prop where
  touched : ∀ {bi ii b inst}, Site f bi ii b inst →
    (∃ k, (l, k) ∈ instUses (isDyn f) borrows inst) ∨ l ∈ consumed (isDyn f) borrows inst ∨
      0 < (localEdits borrows userFn f l).retain.count (bi, .inst ii) → req bi ii
  enough : ∀ {bi ii b inst}, Site f bi ii b inst → (consumed (isDyn f) borrows inst).count l ≤
    (localEdits borrows userFn f l).retain.count (bi, .inst ii) + if lent then 0 else 1
  kept : ∀ {bi ii b inst}, Site f bi ii b inst → ¬ Defines (isDyn f) borrows userFn inst l →
    req bi (ii + 1) → req bi ii ∧ (consumed (isDyn f) borrows inst).count l ≤
      (localEdits borrows userFn f l).retain.count (bi, .inst ii)
  released : ∀ {bi ii b inst}, Site f bi ii b inst → ¬ Defines (isDyn f) borrows userFn inst l →
    0 < (localEdits borrows userFn f l).releaseAfter.count (bi, ii) →
      req bi ii ∧ ¬ lent ∧ ¬ req bi (ii + 1) ∧ (consumed (isDyn f) borrows inst).count l +
        (localEdits borrows userFn f l).releaseAfter.count (bi, ii) ≤
          (localEdits borrows userFn f l).retain.count (bi, .inst ii) + 1
  defined : ∀ {bi ii b inst}, Site f bi ii b inst → Defines (isDyn f) borrows userFn inst l →
    (localEdits borrows userFn f l).releaseAfter.count (bi, ii) ≤ 1 ∧
      (0 < (localEdits borrows userFn f l).releaseAfter.count (bi, ii) → ¬ req bi (ii + 1))
  /-- Edits sit at instructions that use, drop or define the local. -/
  placed : ∀ {bi ii b inst}, Site f bi ii b inst →
    0 < (localEdits borrows userFn f l).retain.count (bi, .inst ii) +
      (localEdits borrows userFn f l).releaseAfter.count (bi, ii) →
    (∃ k, (l, k) ∈ instUses (isDyn f) borrows inst) ∨ isDropOf l inst ∨
      Defines (isDyn f) borrows userFn inst l
  term : ∀ {bi b}, Visited f bi → f.blocks[bi]? = some b →
    0 < (localEdits borrows userFn f l).retain.count (bi, .term) → req bi b.instructions.length
  edge : ∀ {bi bj b}, Visited f bi → f.blocks[bi]? = some b → bj ∈ (succs f).getD bi [] →
    req bj 0 → req bi b.instructions.length
  ret : ∀ {bi b}, Visited f bi → f.blocks[bi]? = some b → Returns f l b.terminator →
    req bi b.instructions.length

/-- How often an instruction takes a reference of a local. -/
theorem count_consumed (hl : isDyn f l) (inst : Instruction) :
    (consumed (isDyn f) borrows inst).count l =
      (instUses (isDyn f) borrows inst).countP (fun u => u.1 = l && u.2.owning) +
        if isDropOf l inst then 1 else 0 := by
  unfold consumed
  rw [List.count_append, List.count_eq_countP, List.countP_map, List.countP_filter]
  congr 1
  unfold isDropOf
  split
  · next l' =>
    rcases eq_or_ne l' l with rfl | hne
    · simp [hl]
    · by_cases h : isDyn f l' <;> simp [h, hne]
  · next h =>
    rcases inst with _ | _ | _ | l' | _ | _ | _ | _ | _ | _ | _ | _ | _ | _ | _ | _
    case drop => exact absurd rfl (h l')
    all_goals rfl

/-- The retains of uses that keep the reference of the local. -/
theorem count_flatMap_retainAt (us : List (ℕ × At × Use)) (bi : ℕ) (at_ : At) :
    (us.flatMap retainAt).count (bi, at_) =
      us.countP fun u => u.1 = bi && u.2.1 = at_ && u.2.2.owning := by
  induction us with
  | nil => rfl
  | cons u us ih =>
    rw [List.flatMap_cons, List.count_append, ih, List.countP_cons, Nat.add_comm]
    congr 1
    obtain ⟨i, a, k⟩ := u
    unfold retainAt
    by_cases hk : k.owning <;> by_cases hi : i = bi <;> by_cases ha : a = at_ <;> simp [hk, hi, ha]

/-- The references that uses take and retains replace. -/
theorem count_consumed_eq (hl : isDyn f l) (hs : Site f bi ii b inst) :
    (consumed (isDyn f) borrows inst).count l =
      (usesOf borrows f l).countP (fun u => u.1 = bi && u.2.1 = .inst ii && u.2.2.owning) +
        if isDropOf l inst then 1 else 0 := by
  rw [count_consumed hl, countP_usesOf_inst hs.block hs.inst]

theorem exists_use_of_countP {p : Use → Bool} (hs : Site f bi ii b inst)
    (h : 0 < (usesOf borrows f l).countP fun u => u.1 = bi && u.2.1 = .inst ii && p u.2.2) :
    ∃ k, (l, k) ∈ instUses (isDyn f) borrows inst := by
  rw [countP_usesOf_inst hs.block hs.inst] at h
  obtain ⟨⟨l', k⟩, hu, hp⟩ := List.countP_pos_iff.mp h
  simp only [Bool.and_eq_true, decide_eq_true_eq] at hp
  exact ⟨k, hp.1 ▸ hu⟩

/-- What an instruction takes a reference from, it uses or drops. -/
theorem use_or_drop_of_mem_consumed (hl : isDyn f l) (hs : Site f bi ii b inst)
    (h : l ∈ consumed (isDyn f) borrows inst) :
    (∃ k, (l, k) ∈ instUses (isDyn f) borrows inst) ∨ isDropOf l inst := by
  rw [← List.count_pos_iff, count_consumed_eq hl hs] at h
  by_cases hd : isDropOf l inst
  · exact .inr hd
  · rw [if_neg hd] at h
    exact .inl (exists_use_of_countP hs h)

theorem mem_usesOf_inst (hs : Site f bi ii b inst) {k : Use} :
    (bi, .inst ii, k) ∈ usesOf borrows f l ↔ (l, k) ∈ instUses (isDyn f) borrows inst := by
  rw [mem_usesOf]
  constructor
  · rintro ⟨b', hb', hu⟩
    obtain rfl : b = b' := Option.some.inj (hs.block.symm.trans hb')
    obtain ⟨inst', hi', hu⟩ := mem_blockUses_inst.mp hu
    obtain rfl : inst = inst' := Option.some.inj (hs.inst.symm.trans hi')
    exact hu
  · exact fun hu => ⟨b, hs.block, mem_blockUses_inst.mpr ⟨inst, hs.inst, hu⟩⟩

theorem mem_usesOf_term (hb : f.blocks[bi]? = some b) :
    (bi, .term, .ret) ∈ usesOf borrows f l ↔ Returns f l b.terminator := by
  rw [mem_usesOf]
  constructor
  · rintro ⟨b', hb', hu⟩
    obtain rfl : b = b' := Option.some.inj (hb.symm.trans hb')
    exact mem_blockUses_term.mp hu
  · exact fun hu => ⟨b, hb, mem_blockUses_term.mpr hu⟩

theorem mem_of_isDropOf (hs : Site f bi ii b inst) (h : isDropOf l inst) :
    b ∈ f.blocks ∧ Instruction.drop l ∈ b.instructions := by
  refine ⟨List.mem_of_getElem? hs.block, ?_⟩
  have hmem := List.mem_of_getElem? hs.inst
  unfold isDropOf at h
  split at h
  · rwa [of_decide_eq_true h] at hmem
  · simp at h

variable {lent : Prop}

/-- Locals that keep their reference and retain for every use that takes one. -/
theorem localCovers_keeping [Decidable lent] (hl : isDyn f l)
    (hretain : (localEdits borrows userFn f l).retain = (usesOf borrows f l).flatMap retainAt)
    (hrelease : (localEdits borrows userFn f l).releaseAfter = [])
    (hdrop : ∀ {bi ii b inst}, Site f bi ii b inst → ¬ isDropOf l inst) :
    LocalCovers borrows userFn f lent l fun _ _ => True := by
  have hcount : ∀ {bi ii b inst}, Site f bi ii b inst →
      (consumed (isDyn f) borrows inst).count l =
        (localEdits borrows userFn f l).retain.count (bi, .inst ii) := by
    intro bi ii b inst hs
    rw [count_consumed_eq hl hs, if_neg (hdrop hs), hretain, count_flatMap_retainAt, Nat.add_zero]
  have hnone : ∀ {bi ii}, (localEdits borrows userFn f l).releaseAfter.count (bi, ii) = 0 := by
    intro bi ii
    rw [hrelease, List.count_nil]
  constructor
  case touched => exact fun _ _ => trivial
  case enough =>
    intro bi ii b inst hs
    rw [hcount hs]
    exact Nat.le_add_right _ _
  case kept => exact fun hs _ _ => ⟨trivial, (hcount hs).le⟩
  case released => intro bi ii b inst hs _ hpos; rw [hnone] at hpos; omega
  case defined => intro bi ii b inst hs _; rw [hnone]; exact ⟨Nat.zero_le 1, fun h => by omega⟩
  case placed =>
    intro bi ii b inst hs hpos
    rw [hnone, hretain, count_flatMap_retainAt, Nat.add_zero] at hpos
    exact .inl (exists_use_of_countP hs hpos)
  case term => exact fun _ _ _ => trivial
  case edge => exact fun _ _ _ _ => trivial
  case ret => exact fun _ _ _ => trivial

section

variable (hf : Lowered borrows userFn f) (hl : isDyn f l)

include hf hl

/-- A parameter keeps the reference it was lent or given. -/
theorem localCovers_param [Decidable lent] (hparam : isParam f l) :
    LocalCovers borrows userFn f lent l fun _ _ => True := by
  have hholder : holderRetain f l = retainAt := by
    funext u
    simp [holderRetain, hparam]
  refine localCovers_keeping hl ?_ ?_ fun {bi ii b inst} hs hd => ?_
  · simp [localEdits, hparam, hholder]
  · simp [localEdits, hparam]
  · obtain ⟨hb, hmem⟩ := mem_of_isDropOf hs hd
    exact (hf.drops b hb l hmem hl).2 hparam

/-- Temps are not dropped by lowering. -/
theorem Lowered.not_drop (hnamed : ¬ isNamed f l) {bi ii : ℕ} {b : BasicBlock} {inst : Instruction}
    (hs : Site f bi ii b inst) : ¬ isDropOf l inst := by
  intro hd
  obtain ⟨hb, hmem⟩ := mem_of_isDropOf hs hd
  exact hnamed (hf.drops b hb l hmem hl).1

/-- A temp that fits no other treatment retains for every use and is never released. -/
theorem localCovers_leaky [Decidable lent] (hparam : ¬ isParam f l) (hnamed : ¬ isNamed f l)
    (huses : usesOf borrows f l ≠ [])
    (hsingle : ¬ singleBlock (usesOf borrows f l) (defsOf borrows userFn f l))
    (hcross : ¬ crossMoved f (defsOf borrows userFn f l) (usesOf borrows f l)) :
    LocalCovers borrows userFn f lent l fun _ _ => True := by
  refine localCovers_keeping hl ?_ ?_ fun hs => hf.not_drop hl hnamed hs
  · simp [localEdits, hparam, hnamed, huses, hsingle, hcross]
  · simp [localEdits, hparam, hnamed, huses, hsingle, hcross]

/-- A temp without uses is released with its definition. -/
theorem localCovers_unused [Decidable lent] (hparam : ¬ isParam f l) (hnamed : ¬ isNamed f l)
    (huses : usesOf borrows f l = []) : LocalCovers borrows userFn f lent l fun _ _ => False := by
  have hretain : (localEdits borrows userFn f l).retain = [] := by
    simp [localEdits, hparam, hnamed, huses]
  have hrelease : ∀ {bi ii}, (localEdits borrows userFn f l).releaseAfter.count (bi, ii) =
      (defsOf borrows userFn f l).countP fun d => d.1 = bi && d.2.1 = ii && true := by
    intro bi ii
    have : (localEdits borrows userFn f l).releaseAfter =
        (defsOf borrows userFn f l).map fun d => (d.1, d.2.1) := by
      simp [localEdits, hparam, hnamed, huses]
    rw [this, List.count_eq_countP, List.countP_map]
    refine List.countP_congr fun d _ => ?_
    simp [Prod.ext_iff]
  have hunused : ∀ {bi ii b inst}, Site f bi ii b inst →
      ¬ ∃ k, (l, k) ∈ instUses (isDyn f) borrows inst := by
    rintro bi ii b inst hs ⟨k, hk⟩
    have : (bi, At.inst ii, k) ∈ usesOf borrows f l := (mem_usesOf_inst hs).mpr hk
    rw [huses] at this
    simp at this
  have htaken : ∀ {bi ii b inst}, Site f bi ii b inst → l ∉ consumed (isDyn f) borrows inst := by
    intro bi ii b inst hs h
    rcases use_or_drop_of_mem_consumed hl hs h with hu | hd
    · exact hunused hs hu
    · exact hf.not_drop hl hnamed hs hd
  have hdefined : ∀ {bi ii b inst}, Site f bi ii b inst →
      0 < (localEdits borrows userFn f l).releaseAfter.count (bi, ii) →
      Defines (isDyn f) borrows userFn inst l := by
    intro bi ii b inst hs hpos
    rw [hrelease, countP_defsOf hs.block hs.inst fun _ => true] at hpos
    split at hpos
    · next d k hd =>
      split_ifs at hpos with hc
      · exact ⟨k, hc.1 ▸ hd⟩
      · omega
    · omega
  constructor
  case touched =>
    rintro bi ii b inst hs (hu | hc | hr)
    · exact hunused hs hu
    · exact htaken hs hc
    · simp [hretain] at hr
  case enough =>
    intro bi ii b inst hs
    rw [List.count_eq_zero_of_not_mem (htaken hs)]
    exact Nat.zero_le _
  case kept => exact fun _ _ h => h.elim
  case released => exact fun hs hnot hpos => absurd (hdefined hs hpos) hnot
  case defined =>
    intro bi ii b inst hs _
    refine ⟨?_, fun _ => not_false⟩
    rw [hrelease, countP_defsOf hs.block hs.inst fun _ => true]
    split
    · split_ifs <;> omega
    · omega
  case placed =>
    intro bi ii b inst hs hpos
    rw [hretain, List.count_nil, Nat.zero_add] at hpos
    exact .inr (.inr (hdefined hs hpos))
  case term => intro bi b _ _ hpos; simp [hretain] at hpos
  case edge => exact fun _ _ _ h => h
  case ret =>
    intro bi b _ hb hret
    have : (bi, At.term, Use.ret) ∈ usesOf borrows f l := (mem_usesOf_term hb).mpr hret
    rw [huses] at this
    simp at this

end

/-! ### Temps of one block -/

theorem At.le_refl (a : At) : a.le a := by
  rcases a with i | _ <;> simp [At.le]

theorem At.le_trans {a b c : At} (hab : a.le b) (hbc : b.le c) : a.le c := by
  rcases a with i | _ <;> rcases b with j | _ <;> rcases c with k | _ <;> simp_all [At.le]
  omega

theorem At.le_total (a b : At) : a.le b ∨ b.le a := by
  rcases a with i | _ <;> rcases b with j | _ <;> simp [At.le]
  omega

variable {us : List (ℕ × At × Use)}

/-- The last place of a sorted list of uses is behind all others. -/
theorem le_getLast {last : ℕ × At × Use}
    (h : (us.insertionSort fun u v => u.2.1.le v.2.1).getLast? = some last) :
    ∀ u ∈ us, u.2.1.le last.2.1 := by
  have htrans : IsTrans (ℕ × At × Use) fun u v => u.2.1.le v.2.1 := ⟨fun _ _ _ => At.le_trans⟩
  have htotal : Std.Total fun u v : ℕ × At × Use => (u.2.1.le v.2.1 : Prop) :=
    ⟨fun u v => At.le_total u.2.1 v.2.1⟩
  have hsorted := List.pairwise_insertionSort (fun u v : ℕ × At × Use => u.2.1.le v.2.1) us
  obtain ⟨ys, hys⟩ := List.getLast?_eq_some_iff.mp h
  intro u hu
  rw [← List.mem_insertionSort (fun u v : ℕ × At × Use => u.2.1.le v.2.1), hys] at hu
  rw [hys, List.pairwise_append] at hsorted
  rcases List.mem_append.mp hu with hu | hu
  · exact hsorted.2.2 u hu last List.mem_cons_self
  · rw [List.mem_singleton.mp hu]
    exact At.le_refl _

/-- Of the uses at the last place that take a reference one moves it, all other uses retain. -/
theorem count_moveRetains {last : At} {bi i : ℕ} :
    ∀ (us : List (ℕ × At × Use)) (moved : Bool), (∀ u ∈ us, u.1 = bi) →
      (moveRetains last moved us).count (bi, .inst i) =
        us.countP (fun u => u.1 = bi && u.2.1 = .inst i && u.2.2.owning) -
          if .inst i = last ∧ moved = false then 1 else 0 := by
  intro us
  induction us with
  | nil => intro moved _; simp [moveRetains]
  | cons u us ih =>
    intro moved hall
    obtain ⟨bj, a, k⟩ := u
    obtain rfl : bj = bi := hall _ List.mem_cons_self
    have ih' := fun moved => ih moved fun v hv => hall v (List.mem_cons_of_mem _ hv)
    rw [List.countP_cons]
    unfold moveRetains
    by_cases hk : k.owning
    · rcases a with j | _
      · rw [if_neg (by simp [hk])]
        dsimp only
        rcases eq_or_ne i j with rfl | hij
        · by_cases hlast : At.inst i = last
          · subst hlast
            rcases moved with _ | _ <;> simp [ih', hk]
          · simp [hlast, ih', hk]
        · by_cases hlast : At.inst j = last
          · subst hlast
            rcases moved with _ | _ <;> simp [ih', hij, hij.symm]
          · simp [hlast, ih', hij.symm]
      · simp [hk, ih']
    · simp [hk, ih']

theorem mem_moveRetains {last : At} {p : ℕ × At} :
    ∀ {us : List (ℕ × At × Use)} {moved : Bool}, p ∈ moveRetains last moved us →
      ∃ u ∈ us, u.1 = p.1 ∧ u.2.1 = p.2 := by
  intro us
  induction us with
  | nil => intro moved h; simp [moveRetains] at h
  | cons u us ih =>
    intro moved h
    have hrest : ∀ {moved}, p ∈ moveRetains last moved us →
        ∃ v ∈ u :: us, v.1 = p.1 ∧ v.2.1 = p.2 := by
      intro moved h
      obtain ⟨v, hv, hp⟩ := ih h
      exact ⟨v, List.mem_cons_of_mem u hv, hp⟩
    obtain ⟨bj, j | _, k⟩ := u <;> unfold moveRetains at h <;> dsimp only at h
    · split_ifs at h
      · rcases List.mem_append.mp h with h | h
        · obtain rfl := List.mem_singleton.mp h
          exact ⟨_, List.mem_cons_self, rfl, rfl⟩
        · exact hrest h
      · exact hrest h
      · rcases List.mem_cons.mp h with rfl | h
        · exact ⟨_, List.mem_cons_self, rfl, rfl⟩
        · exact hrest h
      · exact hrest h
    · split_ifs at h <;> exact hrest h

theorem count_moveRetains_term {last : At} {bi : ℕ} :
    ∀ (us : List (ℕ × At × Use)) (moved : Bool), (moveRetains last moved us).count (bi, .term) = 0 := by
  intro us
  induction us with
  | nil => intro moved; rfl
  | cons u us ih =>
    intro moved
    obtain ⟨bj, a, k⟩ := u
    unfold moveRetains
    rcases a with j | _
    · dsimp only
      split_ifs <;> simp [ih]
    · dsimp only
      split_ifs <;> simp [ih]

theorem exists_of_singleBlock {ds : List (ℕ × ℕ × DefKind)} (h : singleBlock us ds) :
    ∃ bd di k, ds = [(bd, di, k)] ∧
      ∀ u ∈ us, u.1 = bd ∧ ∀ i, u.2.1 = .inst i → di < i := by
  unfold singleBlock at h
  split at h
  · next bd di k =>
    refine ⟨bd, di, k, rfl, fun u hu => ?_⟩
    have := List.all_eq_true.mp h u hu
    simp only [Bool.and_eq_true, decide_eq_true_eq] at this
    refine ⟨this.1, fun i hi => ?_⟩
    have hlt := this.2
    rw [hi] at hlt
    simpa using hlt
  · simp at h

/-- A temp of one block must have a reference from its definition to its last use. -/
theorem localCovers_single (hf : Lowered borrows userFn f) [Decidable lent] (hl : isDyn f l)
    (hparam : ¬ isParam f l) (hnamed : ¬ isNamed f l) (hlent : ¬ lent)
    (huses : usesOf borrows f l ≠ [])
    (hsingle : singleBlock (usesOf borrows f l) (defsOf borrows userFn f l)) :
    ∃ req, LocalCovers borrows userFn f lent l req := by
  obtain ⟨bd, di, k, hdefs, hafter⟩ := exists_of_singleBlock hsingle
  have hlast : ∃ last, ((usesOf borrows f l).insertionSort fun u v => u.2.1.le v.2.1).getLast? =
      some last := by
    refine Option.ne_none_iff_exists'.mp fun h => huses ?_
    rw [List.getLast?_eq_none_iff] at h
    rw [← List.length_eq_zero_iff,
      ← List.length_insertionSort fun u v : ℕ × At × Use => u.2.1.le v.2.1, h, List.length_nil]
  obtain ⟨⟨bl, last, kl⟩, hlast⟩ := hlast
  have hle := le_getLast hlast
  have hlastMem : (bl, last, kl) ∈ usesOf borrows f l :=
    (List.mem_insertionSort _).mp (List.mem_of_getLast? hlast)
  obtain rfl : bl = bd := (hafter _ hlastMem).1
  have hperm := List.perm_insertionSort (fun u v : ℕ × At × Use => u.2.1.le v.2.1)
    (usesOf borrows f l)
  -- retains and releases
  have hretain : (localEdits borrows userFn f l).retain = moveRetains last false
      ((usesOf borrows f l).insertionSort fun u v => u.2.1.le v.2.1) := by
    simp [localEdits, hparam, hnamed, huses, hsingle, hlast]
  have hrelease : (localEdits borrows userFn f l).releaseAfter = releaseLast bl
      ((usesOf borrows f l).any fun u => u.2.1 = last && u.2.2.owning) last := by
    simp [localEdits, hparam, hnamed, huses, hsingle, hlast, hperm.any_eq]
  have hneed : ∀ {bi ii b inst}, Site f bi ii b inst →
      (consumed (isDyn f) borrows inst).count l = (usesOf borrows f l).countP
        fun u => u.1 = bi && u.2.1 = .inst ii && u.2.2.owning := by
    intro bi ii b inst hs
    rw [count_consumed_eq hl hs, if_neg (hf.not_drop hl hnamed hs), Nat.add_zero]
  have hcount : ∀ {ii b inst}, Site f bl ii b inst →
      (localEdits borrows userFn f l).retain.count (bl, .inst ii) =
        (consumed (isDyn f) borrows inst).count l - if .inst ii = last then 1 else 0 := by
    intro ii b inst hs
    rw [hretain, count_moveRetains _ _ fun u hu => (hafter u (hperm.mem_iff.mp hu)).1,
      hperm.countP_eq, hneed hs]
    simp
  have hplaced : ∀ {bi ii b inst}, Site f bi ii b inst →
      0 < (localEdits borrows userFn f l).retain.count (bi, .inst ii) →
      ∃ k, (l, k) ∈ instUses (isDyn f) borrows inst := by
    intro bi ii b inst hs hpos
    rw [hretain] at hpos
    obtain ⟨u, hu, hub, hua⟩ := mem_moveRetains (List.count_pos_iff.mp hpos)
    refine ⟨u.2.2, (mem_usesOf_inst hs).mp ?_⟩
    have hmem := hperm.mem_iff.mp hu
    obtain ⟨bu, au, ku⟩ := u
    obtain rfl : bu = bi := hub
    obtain rfl : au = .inst ii := hua
    exact hmem
  have hused : ∀ {bi ii b inst}, Site f bi ii b inst →
      (∃ k, (l, k) ∈ instUses (isDyn f) borrows inst) →
      bi = bl ∧ di < ii ∧ (At.inst ii).le last := by
    rintro bi ii b inst hs ⟨k, hk⟩
    have hmem : (bi, At.inst ii, k) ∈ usesOf borrows f l := (mem_usesOf_inst hs).mpr hk
    exact ⟨(hafter _ hmem).1, (hafter _ hmem).2 ii rfl, hle _ hmem⟩
  have htaken : ∀ {bi ii b inst}, Site f bi ii b inst → l ∈ consumed (isDyn f) borrows inst →
      ∃ k, (l, k) ∈ instUses (isDyn f) borrows inst := by
    intro bi ii b inst hs h
    exact (use_or_drop_of_mem_consumed hl hs h).resolve_right (hf.not_drop hl hnamed hs)
  -- the release follows the last use, which then takes no reference
  have hreleased : ∀ {bi ii b inst}, Site f bi ii b inst →
      0 < (localEdits borrows userFn f l).releaseAfter.count (bi, ii) →
      bi = bl ∧ last = .inst ii ∧ (consumed (isDyn f) borrows inst).count l = 0 ∧
        (localEdits borrows userFn f l).releaseAfter.count (bi, ii) = 1 := by
    intro bi ii b inst hs hpos
    rw [hrelease] at hpos ⊢
    rcases last with i | _
    · unfold releaseLast at hpos ⊢
      split_ifs at hpos ⊢ with hmoves
      · simp at hpos
      · obtain ⟨rfl, rfl⟩ : bi = bl ∧ ii = i := by simpa using List.count_pos_iff.mp hpos
        refine ⟨rfl, rfl, ?_, by simp⟩
        rw [hneed hs, List.countP_eq_zero]
        intro u hu hc
        simp only [Bool.and_eq_true, decide_eq_true_eq] at hc
        exact hmoves (List.any_eq_true.mpr ⟨u, hu, by simp [hc.1.2, hc.2]⟩)
    · simp [releaseLast] at hpos
  have hdi : ∀ {bi ii b inst}, Site f bi ii b inst → Defines (isDyn f) borrows userFn inst l →
      bi = bl ∧ ii = di := by
    rintro bi ii b inst hs ⟨k', hk'⟩
    have hmem : (bi, ii, k') ∈ defsOf borrows userFn f l :=
      mem_defsOf.mpr ⟨b, inst, hs.block, hs.inst, hk'⟩
    rw [hdefs, List.mem_singleton] at hmem
    simp only [Prod.mk.injEq] at hmem
    exact ⟨hmem.1, hmem.2.1⟩
  obtain ⟨bdef, idef, hbdef, hidef, hdef⟩ : ∃ b inst, f.blocks[bl]? = some b ∧
      b.instructions[di]? = some inst ∧ instDef (isDyn f) borrows userFn inst = some (l, k) :=
    mem_defsOf.mp (hdefs ▸ List.mem_cons_self)
  refine ⟨fun bi ii => bi = bl ∧ di < ii ∧ (At.inst ii).le last, ?_⟩
  constructor
  case touched =>
    rintro bi ii b inst hs (hu | hc | hr)
    · exact hused hs hu
    · exact hused hs (htaken hs hc)
    · exact hused hs (hplaced hs hr)
  case enough =>
    intro bi ii b inst hs
    rw [if_neg hlent]
    by_cases hc : l ∈ consumed (isDyn f) borrows inst
    · obtain ⟨rfl, -, -⟩ := hused hs (htaken hs hc)
      rw [hcount hs]
      split_ifs <;> omega
    · rw [List.count_eq_zero_of_not_mem hc]
      exact Nat.zero_le _
  case kept =>
    rintro bi ii b inst hs hnot ⟨rfl, hlt, hnext⟩
    have hne : di ≠ ii := by
      rintro rfl
      obtain rfl : bdef = b := Option.some.inj (hbdef.symm.trans hs.block)
      obtain rfl : idef = inst := Option.some.inj (hidef.symm.trans hs.inst)
      exact hnot ⟨k, hdef⟩
    have hstep : (At.inst ii).le (.inst (ii + 1)) := by simp [At.le]
    have hnotLast : At.inst ii ≠ last := by
      rintro rfl
      simp [At.le] at hnext
    refine ⟨⟨rfl, by omega, At.le_trans hstep hnext⟩, ?_⟩
    rw [hcount hs, if_neg hnotLast, Nat.sub_zero]
  case released =>
    intro bi ii b inst hs _ hpos
    obtain ⟨rfl, rfl, hzero, hone⟩ := hreleased hs hpos
    refine ⟨⟨rfl, (hafter _ hlastMem).2 ii rfl, At.le_refl _⟩, hlent, ?_, ?_⟩
    · simp [At.le]
    · omega
  case defined =>
    intro bi ii b inst hs hd
    obtain ⟨rfl, rfl⟩ := hdi hs hd
    have hzero : (localEdits borrows userFn f l).releaseAfter.count (bi, ii) = 0 := by
      by_contra hne
      obtain ⟨-, rfl, -, -⟩ := hreleased hs (Nat.pos_of_ne_zero hne)
      exact lt_irrefl ii ((hafter _ hlastMem).2 ii rfl)
    rw [hzero]
    exact ⟨Nat.zero_le 1, fun h => absurd h (lt_irrefl 0)⟩
  case placed =>
    intro bi ii b inst hs hpos
    rcases Nat.eq_zero_or_pos ((localEdits borrows userFn f l).retain.count (bi, .inst ii)) with h | h
    · obtain ⟨rfl, rfl, -, -⟩ := hreleased hs (by omega)
      exact .inl ⟨kl, (mem_usesOf_inst hs).mp hlastMem⟩
    · exact .inl (hplaced hs h)
  case term =>
    intro bi b _ _ hpos
    rw [hretain, count_moveRetains_term] at hpos
    omega
  case edge =>
    rintro bi bj b _ _ _ ⟨-, hlt, -⟩
    omega
  case ret =>
    intro bi b _ hb hret
    have hmem : (bi, At.term, Use.ret) ∈ usesOf borrows f l := (mem_usesOf_term hb).mpr hret
    obtain rfl := (hafter _ hmem).1
    have hterm : last = .term := by
      have := hle _ hmem
      rcases last with i | _
      · simp [At.le] at this
      · rfl
    obtain rfl : bdef = b := Option.some.inj (hbdef.symm.trans hb)
    exact ⟨rfl, (List.getElem?_eq_some_iff.mp hidef).1, by rw [hterm]; rfl⟩

/-! ### Slots that give their reference away -/

/-- The blocks with a path to `target` that enters no barrier on the way. -/
inductive AvoidPath (succs : List (List ℕ)) (barriers : List ℕ) (target : ℕ) : ℕ → Prop
  | here : AvoidPath succs barriers target target
  | step {b c : ℕ} : b ∉ barriers → c ∈ succs.getD b [] → AvoidPath succs barriers target c →
      AvoidPath succs barriers target b

/-- When the search fails, what it has seen is closed under successors that are no barriers. -/
theorem closed_of_reachesLoop {succs : List (List ℕ)} {target : ℕ} {barriers : List ℕ}
    {seen : Finset ℕ} {stack : List ℕ} (h : reachesLoop succs target barriers seen stack = false)
    (hseen : ∀ b ∈ seen, b ≠ target ∧ ∀ c ∈ succs.getD b [], c ∈ seen ∨ c ∈ stack ∨
      (c ≠ target ∧ (c ∈ barriers ∨ succs.length ≤ c))) :
    ∃ S : Finset ℕ, seen ⊆ S ∧
      (∀ b ∈ stack, b ≠ target ∧ (b ∈ S ∨ b ∈ barriers ∨ succs.length ≤ b)) ∧
      ∀ b ∈ S, b ≠ target ∧ ∀ c ∈ succs.getD b [], c ≠ target ∧
        (c ∈ S ∨ c ∈ barriers ∨ succs.length ≤ c) := by
  induction seen, stack using reachesLoop.induct succs target barriers with
  | case1 seen =>
    refine ⟨seen, subset_rfl, by simp, fun b hb => ⟨(hseen b hb).1, fun c hc => ?_⟩⟩
    rcases (hseen b hb).2 c hc with hc | hc | hc
    · exact ⟨(hseen c hc).1, .inl hc⟩
    · simp at hc
    · exact ⟨hc.1, .inr hc.2⟩
  | case2 seen stack =>
    rw [reachesLoop, if_pos rfl] at h
    simp at h
  | case3 seen b stack hne hskip ih =>
    rw [reachesLoop, if_neg hne, if_pos hskip] at h
    have hb : b ∈ seen ∨ (b ≠ target ∧ (b ∈ barriers ∨ succs.length ≤ b)) :=
      hskip.elim (fun h => .inr ⟨hne, .inl h⟩) .inl
    obtain ⟨S, hsub, hstack, hS⟩ := ih h fun x hx => ⟨(hseen x hx).1, fun c hc => by
      rcases (hseen x hx).2 c hc with hc | hc | hc
      · exact .inl hc
      · rcases List.mem_cons.mp hc with rfl | hc
        · exact hb.imp id .inr
        · exact .inr (.inl hc)
      · exact .inr (.inr hc)⟩
    refine ⟨S, hsub, fun x hx => ?_, hS⟩
    rcases List.mem_cons.mp hx with rfl | hx
    · exact ⟨hne, hb.elim (fun h => .inl (hsub h)) fun h => .inr h.2⟩
    · exact hstack x hx
  | case4 seen b stack hne hskip hlt ih =>
    rw [reachesLoop, if_neg hne, if_neg hskip, dif_pos hlt] at h
    have hget : succs.getD b [] = succs[b] := by simp [List.getD, hlt]
    obtain ⟨S, hsub, hstack, hS⟩ := ih h fun x hx => by
      rcases Finset.mem_insert.mp hx with rfl | hx
      · refine ⟨hne, fun c hc => .inr (.inl ?_)⟩
        rw [hget] at hc
        exact List.mem_append_left _ (List.mem_reverse.mpr hc)
      · refine ⟨(hseen x hx).1, fun c hc => ?_⟩
        rcases (hseen x hx).2 c hc with hc | hc | hc
        · exact .inl (Finset.mem_insert_of_mem hc)
        · rcases List.mem_cons.mp hc with rfl | hc
          · exact .inl (Finset.mem_insert_self _ _)
          · exact .inr (.inl (List.mem_append_right _ hc))
        · exact .inr (.inr hc)
    refine ⟨S, (Finset.subset_insert b seen).trans hsub, fun x hx => ?_, hS⟩
    rcases List.mem_cons.mp hx with rfl | hx
    · exact ⟨hne, .inl (hsub (Finset.mem_insert_self _ _))⟩
    · exact hstack x (List.mem_append_right _ hx)
  | case5 seen b stack hne hskip hge ih =>
    rw [reachesLoop, if_neg hne, if_neg hskip, dif_neg hge] at h
    have hb : b ≠ target ∧ (b ∈ barriers ∨ succs.length ≤ b) := ⟨hne, .inr (not_lt.mp hge)⟩
    obtain ⟨S, hsub, hstack, hS⟩ := ih h fun x hx => ⟨(hseen x hx).1, fun c hc => by
      rcases (hseen x hx).2 c hc with hc | hc | hc
      · exact .inl hc
      · rcases List.mem_cons.mp hc with rfl | hc
        · exact .inr (.inr hb)
        · exact .inr (.inl hc)
      · exact .inr (.inr hc)⟩
    refine ⟨S, hsub, fun x hx => ?_, hS⟩
    rcases List.mem_cons.mp hx with rfl | hx
    · exact ⟨hne, .inr hb.2⟩
    · exact hstack x hx

/-- `reaches_without` misses no path. -/
theorem not_avoidPath_of_reachesWithout {succs : List (List ℕ)} {source : ℕ} {barriers : List ℕ}
    (h : reachesWithout succs source barriers = false) {c : ℕ} (hc : c ∈ succs.getD source []) :
    ¬ AvoidPath succs barriers source c := by
  obtain ⟨S, -, hstack, hS⟩ := closed_of_reachesLoop h (by simp)
  have hbad : ∀ {x}, AvoidPath succs barriers source x →
      ¬ (x ≠ source ∧ (x ∈ S ∨ x ∈ barriers ∨ succs.length ≤ x)) := by
    intro x hx
    induction hx with
    | here => exact fun h => h.1 rfl
    | step hb hc _ ih =>
      rintro ⟨-, hx | hx | hx⟩
      · exact ih ((hS _ hx).2 _ hc)
      · exact hb hx
      · simp [List.getD, hx] at hc
  exact fun hpath => hbad hpath (hstack c (List.mem_reverse.mpr hc))

theorem exists_of_crossMoved {ds : List (ℕ × ℕ × DefKind)} (h : crossMoved f ds us) :
    ∃ ub a k, us = [(ub, a, k)] ∧ ub ∉ ds.map Prod.fst ∧
      reachesWithout (succs f) ub (ds.map Prod.fst) = false := by
  unfold crossMoved at h
  split at h
  · next ub a k =>
    simp only [Bool.and_eq_true, Bool.not_eq_true', List.contains_eq_mem,
      decide_eq_false_iff_not] at h
    exact ⟨ub, a, k, rfl, h.1.2, h.2⟩
  · simp at h

/-- A slot that gives its reference away must have one wherever its use can be reached before a
definition. -/
theorem localCovers_moved (hf : Lowered borrows userFn f) [Decidable lent] (hl : isDyn f l)
    (hparam : ¬ isParam f l) (hnamed : ¬ isNamed f l) (hlent : ¬ lent)
    (hsingle : ¬ singleBlock (usesOf borrows f l) (defsOf borrows userFn f l))
    (hcross : crossMoved f (defsOf borrows userFn f l) (usesOf borrows f l)) :
    ∃ req, LocalCovers borrows userFn f lent l req := by
  obtain ⟨ub, a, k, huses, hub, hreach⟩ := exists_of_crossMoved hcross
  have hedits : (localEdits borrows userFn f l).retain = [] ∧
      (localEdits borrows userFn f l).releaseAfter = [] := by
    have hne : usesOf borrows f l ≠ [] := by simp [huses]
    constructor <;> simp [localEdits, hparam, hnamed, hne, hsingle, hcross]
  have hused : ∀ {bi ii b inst}, Site f bi ii b inst →
      (∃ k, (l, k) ∈ instUses (isDyn f) borrows inst) → bi = ub ∧ a = .inst ii := by
    rintro bi ii b inst hs ⟨k', hk⟩
    have hmem : (bi, At.inst ii, k') ∈ usesOf borrows f l := (mem_usesOf_inst hs).mpr hk
    rw [huses, List.mem_singleton] at hmem
    simp only [Prod.mk.injEq] at hmem
    exact ⟨hmem.1, hmem.2.1.symm⟩
  have htaken : ∀ {bi ii b inst}, Site f bi ii b inst → l ∈ consumed (isDyn f) borrows inst →
      bi = ub ∧ a = .inst ii := by
    intro bi ii b inst hs h
    exact hused hs ((use_or_drop_of_mem_consumed hl hs h).resolve_right (hf.not_drop hl hnamed hs))
  have hnodef : ∀ {j k}, (ub, j, k) ∉ defsOf borrows userFn f l :=
    fun h => hub (List.mem_map.mpr ⟨_, h, rfl⟩)
  refine ⟨fun bi ii => (∀ j k, (bi, j, k) ∈ defsOf borrows userFn f l → j < ii) ∧
    ((bi = ub ∧ (At.inst ii).le a) ∨ ∃ c ∈ (succs f).getD bi [],
      AvoidPath (succs f) ((defsOf borrows userFn f l).map Prod.fst) ub c), ?_⟩
  constructor
  case touched =>
    have hreq : ∀ {bi ii}, bi = ub ∧ a = .inst ii →
        (∀ j k, (bi, j, k) ∈ defsOf borrows userFn f l → j < ii) ∧
        ((bi = ub ∧ (At.inst ii).le a) ∨ ∃ c ∈ (succs f).getD bi [],
          AvoidPath (succs f) ((defsOf borrows userFn f l).map Prod.fst) ub c) := by
      rintro bi ii ⟨rfl, rfl⟩
      exact ⟨fun j k h => absurd h hnodef, .inl ⟨rfl, At.le_refl _⟩⟩
    rintro bi ii b inst hs (hu | hc | hr)
    · exact hreq (hused hs hu)
    · exact hreq (htaken hs hc)
    · simp [hedits.1] at hr
  case enough =>
    intro bi ii b inst hs
    rw [if_neg hlent, count_consumed_eq hl hs, if_neg (hf.not_drop hl hnamed hs), Nat.add_zero]
    refine le_trans List.countP_le_length ?_
    rw [huses]
    exact Nat.le_add_left _ _
  case kept =>
    rintro bi ii b inst hs hnot ⟨hdefs, hnext⟩
    refine ⟨⟨fun j k' h => ?_, hnext.imp_left fun h => ⟨h.1, At.le_trans ?_ h.2⟩⟩, ?_⟩
    · have hlt := hdefs j k' h
      refine lt_of_le_of_ne (by omega) ?_
      rintro rfl
      obtain ⟨b', inst', hb', hi', hd⟩ := mem_defsOf.mp h
      obtain rfl : b = b' := Option.some.inj (hs.block.symm.trans hb')
      obtain rfl : inst = inst' := Option.some.inj (hs.inst.symm.trans hi')
      exact hnot ⟨k', hd⟩
    · simp [At.le]
    · -- the use itself is not followed by another one
      have hnone : l ∉ consumed (isDyn f) borrows inst := by
        intro h
        obtain ⟨rfl, rfl⟩ := htaken hs h
        rcases hnext with ⟨-, hle⟩ | ⟨c, hc, hpath⟩
        · simp [At.le] at hle
        · exact not_avoidPath_of_reachesWithout hreach hc hpath
      rw [List.count_eq_zero_of_not_mem hnone]
      exact Nat.zero_le _
  case released => intro bi ii b inst _ _ hpos; simp [hedits.2] at hpos
  case defined => intro bi ii b inst _ _; simp [hedits.2]
  case placed => intro bi ii b inst _ hpos; simp [hedits.1, hedits.2] at hpos
  case term => intro bi b _ _ hpos; simp [hedits.1] at hpos
  case edge =>
    rintro bi bj b _ hb hj ⟨hdefs, hnext⟩
    refine ⟨fun j k' h => ?_, .inr ⟨bj, hj, ?_⟩⟩
    · obtain ⟨b', inst', hb', hi', -⟩ := mem_defsOf.mp h
      obtain rfl : b = b' := Option.some.inj (hb.symm.trans hb')
      exact (List.getElem?_eq_some_iff.mp hi').1
    · rcases hnext with ⟨rfl, -⟩ | ⟨c, hc, hpath⟩
      · exact .here
      · refine .step (fun hmem => ?_) hc hpath
        obtain ⟨⟨bj', j, k'⟩, hd, rfl⟩ := List.mem_map.mp hmem
        exact absurd (hdefs j k' hd) (Nat.not_lt_zero j)
  case ret =>
    intro bi b _ hb hret
    have hmem : (bi, At.term, Use.ret) ∈ usesOf borrows f l := (mem_usesOf_term hb).mpr hret
    rw [huses, List.mem_singleton] at hmem
    simp only [Prod.mk.injEq] at hmem
    obtain ⟨rfl, rfl, -⟩ := hmem
    exact ⟨fun j k h => absurd h hnodef, .inl ⟨rfl, rfl⟩⟩

/-! ### Named locals -/

section Named

variable {us : List (ℕ × At × Use)} {at_ : At}

/-- A named local retains for every use that takes a reference and is no return. -/
theorem countP_le_count_holderRetain :
    us.countP (fun u => u.1 = bi && u.2.1 = at_ && (u.2.2.owning && u.2.2 ≠ .ret)) ≤
      (us.flatMap (holderRetain f l)).count (bi, at_) := by
  induction us with
  | nil => exact Nat.zero_le _
  | cons u us ih =>
    rw [List.flatMap_cons, List.count_append, List.countP_cons, Nat.add_comm]
    refine Nat.add_le_add ?_ ih
    split_ifs with hu
    · simp only [Bool.and_eq_true, decide_eq_true_eq] at hu
      obtain ⟨⟨rfl, rfl⟩, howning, hret⟩ := hu
      simp [holderRetain, hret, retainAt, howning]
    · exact Nat.zero_le _

/-- The retains of a named local stand at its uses, and at its `Drop` when the block returns it. -/
theorem of_mem_holderRetain (hparam : ¬ isParam f l)
    (h : (bi, at_) ∈ us.flatMap (holderRetain f l)) :
    (∃ k, (bi, at_, k) ∈ us ∧ k ≠ .ret) ∨ ∃ d, dropAt f l bi = some d ∧ at_ = .inst d := by
  obtain ⟨⟨bj, a, k⟩, hu, hmem⟩ := List.mem_flatMap.mp h
  unfold holderRetain at hmem
  split_ifs at hmem with hret
  · dsimp only at hmem
    split at hmem
    · next d hd =>
      simp only [List.mem_singleton, Prod.mk.injEq] at hmem
      obtain ⟨rfl, rfl⟩ := hmem
      exact .inr ⟨d, hd, rfl⟩
    · simp at hmem
  · unfold retainAt at hmem
    split_ifs at hmem
    · simp only [List.mem_singleton, Prod.mk.injEq] at hmem
      obtain ⟨rfl, rfl⟩ := hmem
      exact .inl ⟨k, hu, fun hk => hret ⟨hk, hparam⟩⟩
    · simp at hmem

theorem mem_holderRetain_drop {d : ℕ} (hparam : ¬ isParam f l) (hu : (bi, .term, .ret) ∈ us)
    (hd : dropAt f l bi = some d) : (bi, .inst d) ∈ us.flatMap (holderRetain f l) :=
  List.mem_flatMap.mpr ⟨_, hu, by simp [holderRetain, hparam, hd]⟩

end Named

/-- The first `Drop` of a local. -/
theorem of_dropAt {d : ℕ} (hb : f.blocks[bi]? = some b) (h : dropAt f l bi = some d) :
    (∃ inst, b.instructions[d]? = some inst ∧ isDropOf l inst) ∧
      ∀ {ii inst}, b.instructions[ii]? = some inst → isDropOf l inst → d ≤ ii := by
  simp only [dropAt, hb, Option.bind_some] at h
  obtain ⟨hlt, hd, hbefore⟩ := List.findIdx?_eq_some_iff_getElem.mp h
  refine ⟨⟨b.instructions[d], List.getElem?_eq_getElem hlt, hd⟩, fun {ii inst} hi hdrop => ?_⟩
  by_contra hgt
  obtain ⟨hlt', rfl⟩ := List.getElem?_eq_some_iff.mp hi
  exact hbefore ii (not_le.mp hgt) hdrop

/-- A block with one `Drop` of a local has it at one place. -/
theorem eq_of_countP_one {is : List Instruction} {d ii : ℕ} {i j : Instruction}
    (h : is.countP (isDropOf l) = 1) (hd : is[d]? = some i) (hi : is[ii]? = some j)
    (hdi : isDropOf l i) (hij : isDropOf l j) (hle : d ≤ ii) : d = ii := by
  by_contra hne
  have hlt : d < ii := lt_of_le_of_ne hle hne
  have hfirst : 0 < (is.take ii).countP (isDropOf l) := by
    refine List.countP_pos_iff.mpr ⟨i, ?_, hdi⟩
    exact List.mem_of_getElem? (by rw [List.getElem?_take_of_lt hlt]; exact hd)
  have hsecond : 0 < (is.drop ii).countP (isDropOf l) := by
    refine List.countP_pos_iff.mpr ⟨j, ?_, hij⟩
    exact List.mem_of_getElem? (i := 0) (by rw [List.getElem?_drop]; exact hi)
  have hsum : (is.take ii).countP (isDropOf l) + (is.drop ii).countP (isDropOf l) = 1 := by
    rw [← List.countP_append, List.take_append_drop, h]
  omega

/-- The scan up to an instruction. -/
abbrev scanTo (borrows userFn : String → Bool) (f : MirFunction) (l : LocalId) (b : BasicBlock)
    (ii : ℕ) (s : Bool) : Option Bool :=
  (b.instructions.take ii).foldlM (scanInst borrows userFn f l) s

theorem scanTo_succ (hi : b.instructions[ii]? = some inst) (s : Bool) :
    scanTo borrows userFn f l b (ii + 1) s =
      (scanTo borrows userFn f l b ii s).bind fun t => scanInst borrows userFn f l t inst := by
  unfold scanTo
  rw [List.take_add_one, hi, Option.toList_some, List.foldlM_append]
  rcases (b.instructions.take ii).foldlM (scanInst borrows userFn f l) s with _ | t
  · rfl
  · simp

/-- A scan that runs through the block runs through its beginning. -/
theorem exists_scanTo {s : Bool} (h : scanBlock borrows userFn f l b s ≠ none) (ii : ℕ) :
    ∃ t, scanTo borrows userFn f l b ii s = some t := by
  refine Option.ne_none_iff_exists'.mp fun hnone => h ?_
  unfold scanBlock
  rw [← List.take_append_drop ii b.instructions, List.foldlM_append]
  unfold scanTo at hnone
  rw [hnone]
  rfl

theorem exists_block_of_mem_succs {bj : ℕ} (h : bj ∈ (succs f).getD bi []) :
    ∃ b, f.blocks[bj]? = some b := by
  rw [List.getD_eq_getElem?_getD, succs, List.getElem?_map] at h
  rcases hb : f.blocks[bi]? with _ | b
  · simp [hb] at h
  · simp only [hb, Option.map_some, Option.getD_some, List.mem_filterMap] at h
    obtain ⟨id, -, hid⟩ := h
    obtain ⟨⟨b', j⟩, hlast, rfl⟩ := Option.map_eq_some_iff.mp hid
    have hmem := (List.mem_filter.mp (List.mem_of_getLast? hlast)).1
    exact ⟨b', List.mem_zipIdx_iff_getElem?.mp hmem⟩

/-- A path that enters a block. -/
theorem Lowered.exists_enters (hf : Lowered borrows userFn f) (hl : isDyn f l) (hnamed : isNamed f l)
    (hparam : ¬ isParam f l) (h : Visited f bi) : ∃ s, Enters borrows userFn f l bi s := by
  induction h with
  | entry => exact ⟨false, .entry⟩
  | @edge bi bj _ hj ih =>
    obtain ⟨s, hs⟩ := ih
    have hblock : ∃ b, f.blocks[bi]? = some b := by
      refine Option.ne_none_iff_exists'.mp fun hnone => ?_
      have : (succs f).getD bi [] = [] := by simp [succs, List.getD, hnone]
      rw [this] at hj
      simp at hj
    obtain ⟨b, hb⟩ := hblock
    obtain ⟨t, ht⟩ := Option.ne_none_iff_exists'.mp (hf.once l hl hnamed hparam bi s b hs hb)
    exact ⟨t, .edge hs hb ht hj⟩

/-- A named local must have a reference where no path has dropped it; behind its `Drop` only when
the block returns it. -/
theorem localCovers_named (hf : Lowered borrows userFn f) [Decidable lent] (hl : isDyn f l)
    (hparam : ¬ isParam f l) (hnamed : isNamed f l) (hlent : ¬ lent) :
    ∃ req, LocalCovers borrows userFn f lent l req := by
  have hretain : (localEdits borrows userFn f l).retain =
      (usesOf borrows f l).flatMap (holderRetain f l) := by
    simp [localEdits, hnamed]
  have hrelease : (localEdits borrows userFn f l).releaseAfter = [] := by
    simp [localEdits, hnamed]
  have hrun : ∀ {bi b s}, Enters borrows userFn f l bi s → f.blocks[bi]? = some b →
      scanBlock borrows userFn f l b s ≠ none :=
    fun hs hb => hf.once l hl hnamed hparam _ _ _ hs hb
  have hneed : ∀ {bi ii b inst}, Site f bi ii b inst →
      (consumed (isDyn f) borrows inst).count l ≤
        (localEdits borrows userFn f l).retain.count (bi, .inst ii) +
          if isDropOf l inst then 1 else 0 := by
    intro bi ii b inst hs
    rw [count_consumed hl, hretain]
    refine Nat.add_le_add_right (le_trans (le_of_eq ?_) countP_le_count_holderRetain) _
    rw [countP_usesOf_inst hs.block hs.inst fun k => k.owning && k ≠ .ret]
    refine List.countP_congr fun u hu => ?_
    simp [(of_mem_instUses hu).2]
  -- a path on which the local is dropped before the instruction
  let Gone (bi ii : ℕ) : Prop := ∃ s b, Enters borrows userFn f l bi s ∧ f.blocks[bi]? = some b ∧
    scanTo borrows userFn f l b ii s = some true
  have hgone : ∀ {bi ii b inst}, Site f bi ii b inst → Gone bi ii →
      (∀ k, (l, k) ∉ instUses (isDyn f) borrows inst) ∧ ¬ isDropOf l inst ∧
        (¬ Defines (isDyn f) borrows userFn inst l → Gone bi (ii + 1)) := by
    rintro bi ii b inst hs ⟨s, b', henter, hb', hscan⟩
    obtain rfl : b = b' := Option.some.inj (hs.block.symm.trans hb')
    obtain ⟨t, ht⟩ := exists_scanTo (hrun henter hs.block) (ii + 1)
    have hstep := ht
    rw [scanTo_succ hs.inst, hscan, Option.bind_some] at hstep
    unfold scanInst at hstep
    by_cases hdrop : isDropOf l inst
    · simp [hdrop] at hstep
    · rw [if_neg hdrop] at hstep
      have huse : ∀ k, (l, k) ∉ instUses (isDyn f) borrows inst := by
        intro k hk
        rw [if_pos ⟨rfl, _, hk, rfl⟩] at hstep
        simp at hstep
      rw [if_neg (by rintro ⟨-, ⟨_, k⟩, hk, rfl⟩; exact huse k hk)] at hstep
      refine ⟨huse, hdrop, fun hnot => ⟨s, b, henter, hs.block, ?_⟩⟩
      rw [ht, ← hstep, if_neg fun hdef => hnot ?_]
      obtain ⟨⟨d, k⟩, hd, rfl⟩ := Option.map_eq_some_iff.mp hdef
      exact ⟨k, hd⟩
  have hplaced : ∀ {bi ii b inst}, Site f bi ii b inst →
      0 < (localEdits borrows userFn f l).retain.count (bi, .inst ii) →
      (∃ k, (l, k) ∈ instUses (isDyn f) borrows inst) ∨ isDropOf l inst := by
    intro bi ii b inst hs hpos
    rw [hretain] at hpos
    rcases of_mem_holderRetain hparam (List.count_pos_iff.mp hpos) with ⟨k, hk, -⟩ | ⟨d, hd, heq⟩
    · exact .inl ⟨k, (mem_usesOf_inst hs).mp hk⟩
    · obtain rfl : ii = d := by simpa using heq
      obtain ⟨inst', hi', hdrop⟩ := (of_dropAt hs.block hd).1
      obtain rfl : inst = inst' := Option.some.inj (hs.inst.symm.trans hi')
      exact .inr hdrop
  have htouched : ∀ {bi ii b inst}, Site f bi ii b inst →
      (∃ k, (l, k) ∈ instUses (isDyn f) borrows inst) ∨ isDropOf l inst → ¬ Gone bi ii := by
    rintro bi ii b inst hs (⟨k, hk⟩ | hd) h
    · exact (hgone hs h).1 k hk
    · exact (hgone hs h).2.1 hd
  -- the block returns the local, and drops it once, before the instruction
  let Kept (bi ii : ℕ) : Prop := ∃ b d, f.blocks[bi]? = some b ∧ Returns f l b.terminator ∧
    b.instructions.countP (isDropOf l) = 1 ∧ dropAt f l bi = some d ∧ d < ii
  refine ⟨fun bi ii => ¬ Gone bi ii ∨ Kept bi ii, ?_⟩
  constructor
  case touched =>
    rintro bi ii b inst hs (hu | hc | hr)
    · exact .inl (htouched hs (.inl hu))
    · exact .inl (htouched hs (use_or_drop_of_mem_consumed hl hs hc))
    · exact .inl (htouched hs (hplaced hs hr))
  case enough =>
    intro bi ii b inst hs
    rw [if_neg hlent]
    refine (hneed hs).trans (Nat.add_le_add_left ?_ _)
    split_ifs <;> omega
  case kept =>
    intro bi ii b inst hs hnot hreq
    have hle := hneed hs
    by_cases hdrop : isDropOf l inst
    · refine ⟨.inl (htouched hs (.inr hdrop)), ?_⟩
      -- every path has dropped the local now, so the block returns it
      obtain ⟨s, henter⟩ := hf.exists_enters hl hnamed hparam hs.visited
      obtain ⟨t, ht⟩ := exists_scanTo (hrun henter hs.block) (ii + 1)
      have hnow : Gone bi (ii + 1) := by
        refine ⟨s, b, henter, hs.block, ?_⟩
        have hstep := ht
        rw [scanTo_succ hs.inst] at hstep
        obtain ⟨t', -, hstep⟩ := Option.bind_eq_some_iff.mp hstep
        unfold scanInst at hstep
        rw [if_pos hdrop] at hstep
        split_ifs at hstep
        rw [ht, ← hstep]
      rcases hreq with h | ⟨b', d, hb', hret, hone, hd, -⟩
      · exact absurd hnow h
      · obtain rfl : b = b' := Option.some.inj (hs.block.symm.trans hb')
        obtain ⟨⟨i, hi, hdi⟩, hfirst⟩ := of_dropAt hs.block hd
        obtain rfl := eq_of_countP_one hone hi hs.inst hdi hdrop (hfirst hs.inst hdrop)
        have hmem : 0 < (localEdits borrows userFn f l).retain.count (bi, .inst d) := by
          rw [hretain]
          exact List.count_pos_iff.mpr
            (mem_holderRetain_drop hparam ((mem_usesOf_term hs.block).mpr hret) hd)
        have hnouse : (consumed (isDyn f) borrows inst).count l = 1 := by
          rw [count_consumed hl, if_pos hdrop]
          unfold isDropOf at hdrop
          split at hdrop
          · rfl
          · simp at hdrop
        omega
    · rw [if_neg hdrop, Nat.add_zero] at hle
      refine ⟨?_, hle⟩
      rcases hreq with h | ⟨b', d, hb', hret, hone, hd, hlt⟩
      · exact .inl fun hg => h ((hgone hs hg).2.2 hnot)
      · refine .inr ⟨b', d, hb', hret, hone, hd, lt_of_le_of_ne (by omega) ?_⟩
        rintro rfl
        obtain ⟨⟨i, hi, hdi⟩, -⟩ := of_dropAt hs.block hd
        obtain rfl : inst = i := Option.some.inj (hs.inst.symm.trans hi)
        exact hdrop hdi
  case released => intro bi ii b inst _ _ hpos; simp [hrelease] at hpos
  case defined => intro bi ii b inst _ _; simp [hrelease]
  case placed =>
    intro bi ii b inst hs hpos
    rw [hrelease, List.count_nil, Nat.add_zero] at hpos
    exact (hplaced hs hpos).imp_right .inl
  case term =>
    intro bi b _ hb hpos
    rw [hretain] at hpos
    rcases of_mem_holderRetain hparam (List.count_pos_iff.mp hpos) with ⟨k, hk, hne⟩ | ⟨d, -, heq⟩
    · obtain ⟨b', hb', hu⟩ := mem_usesOf.mp hk
      have hret := mem_blockUses_term.mp hu
      unfold termUses at hret
      split at hret
      · exact absurd (of_mem_operandUse hret).2 hne
      · simp at hret
    · simp at heq
  case edge =>
    rintro bi bj b hv hb hj hreq
    left
    rintro ⟨s, b', henter, hb', hscan⟩
    obtain rfl : b = b' := Option.some.inj (hb.symm.trans hb')
    -- a block with a successor returns nothing
    have hnoret : ¬ Returns f l b.terminator := by
      intro hret
      have hnil : (succs f).getD bi [] = [] := by
        obtain ⟨-, op, hop⟩ := hret.of_ret
        simp [succs, List.getD, hb, BasicBlock.successors, hop]
      rw [hnil] at hj
      simp at hj
    have hblock : scanBlock borrows userFn f l b s = some true := by
      unfold scanTo at hscan
      rw [List.take_length] at hscan
      simp [scanBlock, hscan, hnoret]
    have henter' : Enters borrows userFn f l bj true := .edge henter hb hblock hj
    rcases hreq with h | ⟨b', d, -, -, -, -, hlt⟩
    · obtain ⟨b', hb'⟩ := exists_block_of_mem_succs hj
      exact h ⟨true, b', henter', hb', rfl⟩
    · omega
  case ret =>
    intro bi b hv hb hret
    by_cases hg : Gone bi b.instructions.length
    · right
      obtain ⟨s, b', henter, hb', hscan⟩ := hg
      obtain rfl : b = b' := Option.some.inj (hb.symm.trans hb')
      have hone : b.instructions.countP (isDropOf l) = 1 := by
        have hne := hrun henter hb
        unfold scanTo at hscan
        rw [List.take_length] at hscan
        by_contra hcount
        simp [scanBlock, hscan, hret, hcount] at hne
      have hex : ∃ d, dropAt f l bi = some d := by
        obtain ⟨i, hi, hdi⟩ := List.countP_pos_iff.mp (by omega : 0 < b.instructions.countP (isDropOf l))
        refine Option.ne_none_iff_exists'.mp fun hnone => ?_
        simp only [dropAt, hb, Option.bind_some, List.findIdx?_eq_none_iff] at hnone
        simp [hnone i hi] at hdi
      obtain ⟨d, hd⟩ := hex
      obtain ⟨⟨i, hi, -⟩, -⟩ := of_dropAt hb hd
      exact ⟨b, d, hb, hret, hone, hd, (List.getElem?_eq_some_iff.mp hi).1⟩
    · exact .inl hg

end Local

end Kryos.DynOwn
